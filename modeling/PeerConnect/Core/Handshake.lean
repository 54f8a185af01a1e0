import PeerConnect.Core.Acceptor

/-! Which handshakes the accept loop survives. -/
namespace PeerConnect.Core
open Library Wire TaskQueue

namespace Acceptor

/-- What the second read gets, if the first one got the whole length and there is more. -/
def payload (s : Source UInt8) : Option Bytes :=
  let s' := s.advance 4
  if s.pending ≠ [] ∧ s.grant 4 = 4 ∧ s'.pending ≠ [] then
    some (s'.pending.take (s'.grant (ofNetworkOrder (s.pending.take 4))))
  else none

/-- A run that ends with nothing read, with a caught exception, or never. -/
def Quiet (r : Run Exn (Source UInt8) Bytes) : Prop :=
  (∃ s, r = .done [] s) ∨ (∃ e s, r = .raised e s ∧ caught e = true) ∨ ∃ s, r = .blocked s

end Acceptor
end PeerConnect.Core
