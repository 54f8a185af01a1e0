import PeerConnect.Kademlia.PeerLists
import PeerConnect.Library.Run
import PeerConnect.Library.Text

/-! Peers as objects of the program, how they are packed for other nodes, and the copy of the packed
bytes that a peer keeps. -/
namespace PeerConnect.Core
open Library Wire Kademlia

/-- `str(value)`, which is the value itself for a text. -/
structure Printer where
  str : Value → Text
  str_str : ∀ s, str (.str s) = s

/-- A `RemotePeer`, with whatever values its fields have been given. The constructor takes no empty id. -/
structure PeerObject where
  id : Bytes
  id_ne : id ≠ []
  username : Value
  ip : Text
  connPort : Value
  reqPort : Value
  status : Value

namespace PeerObject

/-- `__init__`. A float has a `hex` as well, which is no number to the base of sixteen. -/
def new (printer : Printer) (byteId username ip connPort reqPort status : Value) :
    Except Exn PeerObject :=
  match byteId with
  | .bin [] => .error .valueError
  | .bin (b::bs) =>
    .ok ⟨b::bs,List.cons_ne_nil b bs,username,printer.str ip,connPort,reqPort,status⟩
  | .float _ => .error .valueError
  | _ => .error .attributeError

/-- What the parameters are when they are not given. -/
def defaults : List Value := [.bin [0],.nil,.nil,.int 3485,.int 3486,.int 0]

/-- `cls(*attributes)` -/
def construct (printer : Printer) (attributes : List Value) : Except Exn PeerObject :=
  match attributes ++ defaults.drop attributes.length with
  | [byteId,username,ip,connPort,reqPort,status] =>
    new printer byteId username ip connPort reqPort status
  | _ => .error .typeError

def loadFrom (u : Umsgpack) (printer : Printer) (data : Bytes) : Except Exn PeerObject :=
  match u.loads data with
  | none => .error .unpackException
  | some listOfAttrs =>
    match listOfAttrs.elements with
    | none => .error .typeError
    | some attributes => construct printer attributes

/-- `list(self)` -/
def attributes (p : PeerObject) : List Value :=
  [.bin p.id,p.username,.str p.ip,p.connPort,p.reqPort,p.status]

def toBytes (u : Umsgpack) (p : PeerObject) : Option Bytes := u.dumps (.array p.attributes)

/-- A peer of the network, as an object. -/
def ofRemotePeer (p : RemotePeer) : PeerObject where
  id := p.id.bytes
  id_ne h := by
    have hlength := p.id.length_eq
    rw [h] at hlength
    cases hlength
  username := .str p.username
  ip := p.ip
  connPort := .int p.connPort
  reqPort := .int p.reqPort
  status := .int p.status

variable {u : Umsgpack} {printer : Printer} {p : PeerObject} {bs : Bytes}

theorem construct_attributes (printer : Printer) (p : PeerObject) :
    construct printer p.attributes = .ok p := by
  obtain ⟨id,hid,username,ip,connPort,reqPort,status⟩ := p
  cases id with
  | nil => exact absurd rfl hid
  | cons b id => simp [construct, attributes, defaults, new, printer.str_str]

/-- A peer that was packed is read back as it was. -/
theorem loadFrom_toBytes (h : p.toBytes u = some bs) : loadFrom u printer bs = .ok p := by
  simp only [loadFrom, u.loads_dumps h, Value.elements, construct_attributes]

end PeerObject

/-- A peer with its `_byte_cache`: the hash that its attributes had when they were packed, and the
bytes. -/
structure CachedPeer where
  peer : PeerObject
  byteCache : Option (ℤ × Bytes) := none

namespace CachedPeer

variable (u : Umsgpack) (hash : PeerObject → Except Exn ℤ)

def pack (hashed : ℤ) : Coro Exn CachedPeer Bytes := do
  let packed ← Coro.get fun s => s.peer.toBytes u
  match packed with
  | none => Coro.raise .packException
  | some r =>
    Coro.modify fun s => { s with byteCache := some (hashed,r) }
    pure r

/-- The property `serialized`, given the hashes of the tuples of attributes. -/
def serialized : Coro Exn CachedPeer Bytes := do
  let h ← Coro.get fun s => hash s.peer
  let hashed ← Coro.ofExcept h
  let cache ← Coro.get fun s => s.byteCache
  match cache with
  | some (cached,r) => if hashed = cached then pure r else pack u hashed
  | none => pack u hashed

/-- Attributes are assigned, or the bytes are asked for. -/
inductive Event
  | assign (peer : PeerObject)
  | read

def step (s : CachedPeer) : Event → CachedPeer
  | .assign peer => { s with peer := peer }
  | .read => (serialized u hash s).state

/-- What the attributes have been in a run. -/
def taken (peer : PeerObject) (es : List Event) : List PeerObject :=
  peer::es.filterMap fun
  | .assign p => some p
  | .read => none

/-- The copy has been made of attributes among the given ones. -/
structure CopyOf (peers : List PeerObject) (s : CachedPeer) : Prop where
  current : s.peer ∈ peers
  copy : ∀ hashed r, s.byteCache = some (hashed,r) →
    ∃ p ∈ peers, hash p = .ok hashed ∧ p.toBytes u = some r

variable {u hash} {peers : List PeerObject} {s : CachedPeer}

/-- What `serialized` can do: fail and leave everything, return the copy, or make a new one. -/
theorem serialized_cases (hash : PeerObject → Except Exn ℤ) (s : CachedPeer) :
    (∃ e, serialized u hash s = .raised e s) ∨
    (∃ hashed r, s.byteCache = some (hashed,r) ∧ hash s.peer = .ok hashed ∧
      serialized u hash s = .done r s) ∨
    ∃ hashed r, hash s.peer = .ok hashed ∧ s.peer.toBytes u = some r ∧
      serialized u hash s = .done r { s with byteCache := some (hashed,r) } := by
  cases hh : hash s.peer with
  | error e => exact .inl ⟨e,by simp [serialized, hh]⟩
  | ok hashed =>
    have hpack : (∃ e, pack u hashed s = .raised e s) ∨ ∃ r, s.peer.toBytes u = some r ∧
        pack u hashed s = .done r { s with byteCache := some (hashed,r) } := by
      cases hb : s.peer.toBytes u with
      | none => exact .inl ⟨.packException,by simp [pack, hb]⟩
      | some r => exact .inr ⟨r,rfl,by simp [pack, hb]⟩
    cases hc : s.byteCache with
    | none =>
      have he : serialized u hash s = pack u hashed s := by simp [serialized, hh, hc]
      rw [he]
      exact hpack.imp_right fun ⟨r,hr,hd⟩ => .inr ⟨hashed,r,rfl,hr,hd⟩
    | some cache =>
      obtain ⟨cached,r⟩ := cache
      by_cases heq : hashed = cached
      · subst heq
        exact .inr (.inl ⟨hashed,r,rfl,rfl,by simp [serialized, hh, hc]⟩)
      · have he : serialized u hash s = pack u hashed s := by simp [serialized, hh, hc, heq]
        rw [he]
        exact hpack.imp_right fun ⟨r,hr,hd⟩ => .inr ⟨hashed,r,rfl,hr,hd⟩

theorem CopyOf.serialized (h : CopyOf u hash peers s) :
    CopyOf u hash peers (serialized u hash s).state := by
  rcases serialized_cases (u := u) hash s with
    ⟨e,he⟩ | ⟨hashed,r,_,_,he⟩ | ⟨hashed,r,hh,hr,he⟩
  · rw [he]
    exact h
  · rw [he]
    exact h
  · rw [he]
    refine ⟨h.current,fun hashed' r' hc => ?_⟩
    cases hc
    exact ⟨s.peer,h.current,hh,hr⟩

theorem copyOf_after {es : List Event} (h : CopyOf u hash peers s)
    (hes : ∀ p, .assign p ∈ es → p ∈ peers) : CopyOf u hash peers (after (step u hash) s es) := by
  induction es generalizing s with
  | nil => exact h
  | cons e es ih =>
    rw [after_cons]
    refine ih ?_ fun p hp => hes p (List.mem_cons_of_mem _ hp)
    cases e with
    | assign p => exact ⟨hes p List.mem_cons_self,h.copy⟩
    | read => exact h.serialized

theorem mem_taken {peer p : PeerObject} {es : List Event} (h : .assign p ∈ es) :
    p ∈ taken peer es := List.mem_cons_of_mem _ (List.mem_filterMap.mpr ⟨_,h,rfl⟩)

/-- What is returned is the packed attributes, if no two of the given ones have the same hash. -/
theorem CopyOf.done {s' : CachedPeer} {bs : Bytes} (h : CopyOf u hash peers s)
    (hinj : ∀ p ∈ peers, ∀ q ∈ peers, ∀ x, hash p = .ok x → hash q = .ok x → p = q)
    (hd : CachedPeer.serialized u hash s = .done bs s') :
    s'.peer = s.peer ∧ s.peer.toBytes u = some bs := by
  rcases serialized_cases (u := u) hash s with
    ⟨e,he⟩ | ⟨hashed,r,hc,hh,he⟩ | ⟨hashed,r,hh,hr,he⟩
  · rw [he] at hd
    cases hd
  · rw [he] at hd
    cases hd
    obtain ⟨p,hp,hph,hpb⟩ := h.copy hashed bs hc
    rw [hinj p hp s.peer h.current hashed hph hh] at hpb
    exact ⟨rfl,hpb⟩
  · rw [he] at hd
    cases hd
    exact ⟨rfl,hr⟩

/-- After any assignments and readings, what `serialized` returns is read as a peer with the attributes
there are then, if hashes tell apart all that the attributes have been. -/
theorem serialized_current (u : Umsgpack) (printer : Printer) (hash : PeerObject → Except Exn ℤ)
    (peer : PeerObject) (es : List Event)
    (hinj : ∀ p ∈ taken peer es, ∀ q ∈ taken peer es, ∀ x, hash p = .ok x → hash q = .ok x → p = q)
    (bs : Bytes) (s' : CachedPeer)
    (h : CachedPeer.serialized u hash (after (step u hash) ⟨peer,none⟩ es) = .done bs s') :
    s'.peer = (after (step u hash) ⟨peer,none⟩ es).peer ∧
      PeerObject.loadFrom u printer bs = .ok s'.peer := by
  have hcopy : CopyOf u hash (taken peer es) (after (step u hash) ⟨peer,none⟩ es) :=
    copyOf_after ⟨List.mem_cons_self,fun _ _ hc => by cases hc⟩ fun p hp => mem_taken hp
  obtain ⟨hpeer,hbytes⟩ := hcopy.done hinj h
  rw [hpeer]
  exact ⟨rfl,PeerObject.loadFrom_toBytes hbytes⟩

/-- A peer that is online, and one that is not. -/
def samplePeer (online : Bool) : PeerObject where
  id := [7]
  id_ne := List.cons_ne_nil 7 []
  username := .str ['p']
  ip := ['h']
  connPort := .int 1
  reqPort := .int 2
  status := .int (if online then 1 else 0)

def samplePacked (status : UInt8) : Bytes := [0x96,0xc4,1,7,0xa1,0x70,0xa1,0x68,1,2,status]

/-- A package that knows the peer online. -/
def samplePacker : Umsgpack :=
  .single (.array (samplePeer true).attributes) (samplePacked 1)
    (fun
      | .array [.bin a,.str b,.str c,.int l,.int m,.int n] =>
        decide (a = [7] ∧ b = ['p'] ∧ c = ['h'] ∧ l = 1 ∧ m = 2 ∧ n = 1)
      | _ => false)
    (by
      intro w h
      split at h
      · obtain ⟨rfl,rfl,rfl,rfl,rfl,rfl⟩ := of_decide_eq_true h
        rfl
      · cases h)

def statusHash (p : PeerObject) : Except Exn ℤ :=
  match p.status with
  | .int n => .ok n
  | _ => .ok (-1)

/-- A peer that has gone online is read as online. -/
theorem serialized_current_online :
    ∃ s', CachedPeer.serialized samplePacker statusHash
        (after (step samplePacker statusHash) ⟨samplePeer false,none⟩ [.assign (samplePeer true),.read]) =
          .done (samplePacked 1) s' ∧
      PeerObject.loadFrom samplePacker ⟨fun | .str s => s | _ => [],fun _ => rfl⟩ (samplePacked 1) =
        .ok s'.peer := by
  refine ⟨⟨samplePeer true,some (1,samplePacked 1)⟩,rfl,?_⟩
  refine (serialized_current samplePacker _ statusHash (samplePeer false)
    [.assign (samplePeer true),.read] ?_ (samplePacked 1) _ rfl).2
  intro p hp q hq x hpx hqx
  simp only [taken, List.filterMap_cons, List.filterMap_nil, List.mem_cons, List.not_mem_nil,
    or_false] at hp hq
  rcases hp with rfl | rfl <;> rcases hq with rfl | rfl
  · rfl
  · exact absurd (hpx.trans hqx.symm) (by decide)
  · exact absurd (hpx.trans hqx.symm) (by decide)
  · rfl

end CachedPeer
end PeerConnect.Core
