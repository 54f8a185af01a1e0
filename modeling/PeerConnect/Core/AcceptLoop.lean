import PeerConnect.Core.Handshake

/-! The accept loop over whole runs: exactly which connections it survives. -/
namespace PeerConnect.Core
open Library Wire TaskQueue

namespace Acceptor

/-- Neither group is aborting while the loop is accepting. -/
def Sound (a : Acceptor) : Prop :=
  a.accepting = true → a.group.aborting = false ∧ a.connections.group.aborting = false

end Acceptor

end PeerConnect.Core
