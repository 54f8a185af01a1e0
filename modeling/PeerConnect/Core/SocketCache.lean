import PeerConnect.Library.Coroutine
import PeerConnect.Library.Lru
import PeerConnect.Library.Run

/-! The cache of connected sockets. It forgets the entry in front when it is full, and is compared with a
map that forgets the least recently used one. -/
namespace PeerConnect.Core
open Library

inductive CacheError
  | keyError
  | osError
  deriving DecidableEq, Repr

/-- The ordered dictionary, with what came first in front, and the sockets that `close` has been
called on. -/
structure SocketCache (κ σ : Type) where
  socketCache : Dict κ σ := []
  closed : List σ := []

namespace SocketCache
variable {κ σ : Type}

/-- `OrderedDict.popitem(last=False)` -/
def popitem : Coro CacheError (SocketCache κ σ) (κ × σ) := do
  match ← Coro.get fun c => c.socketCache with
  | [] => Coro.raise .keyError
  | item::rest =>
    Coro.modify fun c => { c with socketCache := rest }
    pure item

/-- `sock.close()`, which may raise an `OSError`. -/
def close (sock : σ) (raises : Bool) : Coro CacheError (SocketCache κ σ) Unit := do
  Coro.modify fun c => { c with closed := sock::c.closed }
  if raises then Coro.raise .osError else pure ()

def values (c : SocketCache κ σ) : List σ := c.socketCache.map Prod.snd

variable [DecidableEq κ]

def getitem (peerId : κ) : Coro CacheError (SocketCache κ σ) σ := do
  match ← Coro.get fun c => Dict.get? peerId c.socketCache with
  | none => Coro.raise .keyError
  | some sock => pure sock

def setitem (peerId : κ) (sock : σ) : Coro CacheError (SocketCache κ σ) Unit :=
  Coro.modify fun c => { c with socketCache := Dict.set peerId sock c.socketCache }

def delitem (peerId : κ) : Coro CacheError (SocketCache κ σ) Unit := do
  let _ ← getitem peerId
  Coro.modify fun c => { c with socketCache := Dict.remove peerId c.socketCache }

def addPeerSock (maxLimit : ℕ) (peerId : κ) (peerSocket : σ) :
    Coro CacheError (SocketCache κ σ) σ := do
  let len ← Coro.get fun c => c.socketCache.length
  if maxLimit ≤ len then let _ ← popitem
  setitem peerId peerSocket
  pure peerSocket

/-- A socket is true. -/
def getSocket (peerId : κ) : Coro CacheError (SocketCache κ σ) (Option σ) := do
  match ← Coro.get fun c => Dict.get? peerId c.socketCache with
  | none => pure none
  | some sock =>
    delitem peerId
    setitem peerId sock
    pure (some sock)

def isConnected (connected : σ → Bool) (peerId : κ) : Coro CacheError (SocketCache κ σ) (Option σ) :=
  Coro.tryCatch (do
    let sock ← getitem peerId
    pure (if connected sock then some sock else none)) fun
  | .keyError => pure none
  | .osError => Coro.raise .osError

/-- The handler of `OSError` stands outside the block that has deleted the entry. -/
def removeAndClose (peerId : κ) (raises : Bool) : Coro CacheError (SocketCache κ σ) Unit :=
  Coro.tryCatch (do
    let sock ← getitem peerId
    delitem peerId
    close sock raises) fun
  | .keyError => pure ()
  | .osError => delitem peerId

/-- The loop of `__close_all_socks`. -/
def closeAllSocks (raises : σ → Bool) : List σ → Coro CacheError (SocketCache κ σ) Unit
  | [] => pure ()
  | sock::socks => do
    Coro.tryCatch (close sock (raises sock)) fun _ => pure ()
    closeAllSocks raises socks

def clear (raises : σ → Bool) : Coro CacheError (SocketCache κ σ) Unit := do
  let socks ← Coro.get values
  closeAllSocks raises socks
  Coro.modify fun c => { c with socketCache := [] }

/-- A call of an operation, and whether `close` raises in it. -/
inductive Operation (κ σ : Type)
  | addPeerSock (peerId : κ) (peerSocket : σ)
  | getSocket (peerId : κ)
  | removeAndClose (peerId : κ) (raises : Bool)
  | clear (raises : σ → Bool)

/-- The cache after an operation, whether it has returned or raised. -/
def step (maxLimit : ℕ) (c : SocketCache κ σ) : Operation κ σ → SocketCache κ σ
  | .addPeerSock peerId peerSocket => (addPeerSock maxLimit peerId peerSocket c).state
  | .getSocket peerId => (getSocket peerId c).state
  | .removeAndClose peerId raises => (removeAndClose peerId raises c).state
  | .clear raises => (clear raises c).state

variable {maxLimit : ℕ} {peerId : κ} {sock : σ} {c : SocketCache κ σ}

/-- What stays of the dictionary to make room for one more entry. -/
def makeRoom (maxLimit : ℕ) (d : Dict κ σ) : Dict κ σ := if maxLimit ≤ d.length then d.tail else d

theorem addPeerSock_eq (h : c.socketCache = [] → 0 < maxLimit) :
    addPeerSock maxLimit peerId sock c =
      .done sock { c with socketCache := Dict.set peerId sock (makeRoom maxLimit c.socketCache) } := by
  obtain ⟨d,closed⟩ := c
  simp only [addPeerSock, Coro.bind_apply, Coro.get_apply, Run.bind_done, makeRoom]
  by_cases hl : maxLimit ≤ d.length
  · cases d with
    | nil => exact absurd hl (Nat.not_le.mpr (h rfl))
    | cons item rest => rw [if_pos hl, if_pos hl]; rfl
  · rw [if_neg hl, if_neg hl]; rfl

/-- Without a limit above zero there is no entry that can go. -/
theorem addPeerSock_raises (h : c.socketCache = []) :
    addPeerSock 0 peerId sock c = .raised .keyError c := by
  obtain ⟨d,closed⟩ := c
  obtain rfl : d = [] := h
  rfl

theorem getSocket_of_none (h : Dict.get? peerId c.socketCache = none) :
    getSocket peerId c = .done none c := by
  simp only [getSocket, Coro.bind_apply, Coro.get_apply, Run.bind_done, h, Coro.pure_apply]

theorem delitem_of_get? (h : Dict.get? peerId c.socketCache = some sock) :
    delitem peerId c = .done () { c with socketCache := Dict.remove peerId c.socketCache } := by
  simp only [delitem, getitem, Coro.bind_apply, Coro.get_apply, Run.bind_done, h, Coro.pure_apply,
    Coro.modify_apply]

theorem getSocket_of_get? (h : Dict.get? peerId c.socketCache = some sock) :
    getSocket peerId c =
      .done (some sock) { c with socketCache := Dict.remove peerId c.socketCache ++ [(peerId,sock)] } := by
  have hset : Dict.set peerId sock (Dict.remove peerId c.socketCache) =
      Dict.remove peerId c.socketCache ++ [(peerId,sock)] := if_neg (Dict.notMem_keys_remove peerId _)
  simp only [getSocket, Coro.bind_apply, Coro.get_apply, Run.bind_done, h, delitem_of_get? h, setitem,
    Coro.modify_apply, hset, Coro.pure_apply]

theorem removeAndClose_of_none (h : Dict.get? peerId c.socketCache = none) (raises : Bool) :
    removeAndClose peerId raises c = .done () c := by
  simp only [removeAndClose, Coro.tryCatch_apply, getitem, Coro.bind_apply, Coro.get_apply, Run.bind_done,
    h, Coro.raise_apply, Run.bind_raised, Run.handle_raised, Coro.pure_apply]

theorem removeAndClose_closes (h : Dict.get? peerId c.socketCache = some sock) :
    removeAndClose peerId false c = .done () ⟨Dict.remove peerId c.socketCache,sock::c.closed⟩ := by
  simp only [removeAndClose, Coro.tryCatch_apply, getitem, Coro.bind_apply, Coro.get_apply, Run.bind_done,
    h, Coro.pure_apply, delitem_of_get? h, close, Coro.modify_apply, Bool.false_eq_true, if_false,
    Run.handle_done]

/-- The entry is deleted a second time. -/
theorem removeAndClose_raises (h : Dict.get? peerId c.socketCache = some sock) :
    removeAndClose peerId true c = .raised .keyError ⟨Dict.remove peerId c.socketCache,sock::c.closed⟩ := by
  have hnone : Dict.get? peerId (Dict.remove peerId c.socketCache) = none :=
    Dict.get?_eq_none_iff.mpr (Dict.notMem_keys_remove peerId _)
  simp only [removeAndClose, Coro.tryCatch_apply, getitem, Coro.bind_apply, Coro.get_apply, Run.bind_done,
    h, Coro.pure_apply, close, Coro.modify_apply, if_true, Coro.raise_apply,
    Run.handle_raised, delitem, hnone, Run.bind_raised]

theorem removeAndClose_socketCache (raises : Bool) :
    (removeAndClose peerId raises c).state.socketCache = Dict.remove peerId c.socketCache := by
  cases h : Dict.get? peerId c.socketCache with
  | none =>
    rw [removeAndClose_of_none h, Dict.remove_of_notMem (Dict.get?_eq_none_iff.mp h)]
    rfl
  | some sock =>
    cases raises with
    | false => rw [removeAndClose_closes h]; rfl
    | true => rw [removeAndClose_raises h]; rfl

omit [DecidableEq κ] in
theorem closeAllSocks_eq (raises : σ → Bool) (socks : List σ) (c : SocketCache κ σ) :
    closeAllSocks raises socks c = .done () { c with closed := socks.reverse ++ c.closed } := by
  induction socks generalizing c with
  | nil => rfl
  | cons sock socks ih =>
    have hclose : (Coro.tryCatch (close sock (raises sock)) fun _ => pure () :
        Coro CacheError (SocketCache κ σ) Unit) c = .done () { c with closed := sock::c.closed } := by
      cases h : raises sock <;> rfl
    rw [closeAllSocks, Coro.bind_apply, hclose, Run.bind_done, ih, List.reverse_cons, List.append_assoc]
    rfl

omit [DecidableEq κ] in
/-- Whatever `close` raises, all sockets are closed. -/
theorem clear_eq (raises : σ → Bool) :
    clear raises c = .done () ⟨[],c.values.reverse ++ c.closed⟩ := by
  simp only [clear, Coro.bind_apply, Coro.get_apply, Run.bind_done, closeAllSocks_eq, Coro.modify_apply]

end SocketCache
end PeerConnect.Core
