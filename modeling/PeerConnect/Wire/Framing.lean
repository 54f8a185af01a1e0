import PeerConnect.Wire.Packet

/-! The stream frame format: what `send` and `send_async` write, and what `receive`, which reads in
a loop, and `receive_async`, which does not, make of it. -/
namespace PeerConnect.Wire
open Library

/-- What one call of `sendall` is given, or nothing where the length does not fit. -/
def frame (data : Bytes) : Option Bytes := (packUInt 4 data.length).map (· ++ data)

inductive Writer
  | send
  | sendAsync
  deriving DecidableEq, Repr

namespace Frame

def send (data : Bytes) : Option Bytes := frame data
def sendAsync (data : Bytes) : Option Bytes := frame data

def write : Writer → Bytes → Option Bytes
  | .send => send
  | .sendAsync => sendAsync

/-- All that is written by some calls, each by one of the two writers. -/
def stream : List (Writer × Bytes) → Option Bytes
  | [] => some []
  | (w,data)::sent => do
    let first ← write w data
    let others ← stream sent
    pure (first ++ others)

/-- The loop of `receive` around `sock.recv`. On a socket that does not block it waits for the
socket to become readable and goes on. -/
def receiveUpTo (n : ℕ) (buf : Bytes) : Coro Exn (Source UInt8) Bytes := fun s =>
  if buf.length < n then
    match sockRecv (n-buf.length) s with
    | .raised e s' => .raised e s'
    | .blocked s' => .blocked s'
    | .done data s' =>
      if hd : data = [] then .raised .osError s'
      else
        have := List.length_pos_iff.mpr hd
        receiveUpTo n (buf++data) s'
  else .done buf s
termination_by n-buf.length
decreasing_by rw [List.length_append]; omega

def receive : Coro Exn (Source UInt8) Bytes := do
  let lengthBuf ← receiveUpTo 4 []
  match unpackUInt 4 lengthBuf with
  | some dataLength => receiveUpTo dataLength []
  | none => Coro.raise .structError

/-- The payloads that successive calls of a reader return. -/
def successive (reader : Coro Exn (Source UInt8) Bytes) :
    ℕ → Coro Exn (Source UInt8) (List Bytes)
  | 0 => pure []
  | k+1 => do
    let data ← reader
    let others ← successive reader k
    pure (data::others)

theorem write_eq_some {w : Writer} {data bs : Bytes} (h : write w data = some bs) :
    ∃ size, packUInt 4 data.length = some size ∧ bs = size ++ data := by
  have hf : frame data = some bs := by cases w <;> exact h
  obtain ⟨size,hs,rfl⟩ := Option.map_eq_some_iff.mp hf
  exact ⟨size,hs,rfl⟩

theorem stream_cons {w : Writer} {data bs : Bytes} {sent : List (Writer × Bytes)}
    (h : stream ((w,data)::sent) = some bs) :
    ∃ size others, packUInt 4 data.length = some size ∧ stream sent = some others ∧
      bs = size ++ (data ++ others) := by
  simp only [stream] at h
  obtain ⟨first,hw,h⟩ := Option.bind_eq_some_iff.mp h
  obtain ⟨others,ho,h⟩ := Option.bind_eq_some_iff.mp h
  obtain ⟨size,hs,rfl⟩ := write_eq_some hw
  refine ⟨size,others,hs,ho,?_⟩
  rw [← List.append_assoc]
  exact (Option.some.inj h).symm

/-- However the transport cuts, the loop gets what it wants if that much is there. -/
theorem receiveUpTo_append (buf : Bytes) {s : Source UInt8} {xs rest : Bytes}
    (hp : s.pending = xs ++ rest) :
    ∃ t, receiveUpTo (buf.length+xs.length) buf s = .done (buf++xs) t ∧ t.pending = rest := by
  induction hn : xs.length using Nat.strong_induction_on generalizing s buf xs with
  | _ n ih =>
    subst hn
    rw [receiveUpTo]
    by_cases hx : xs = []
    · subst hx
      exact ⟨s,by simp,by simpa using hp⟩
    · have hpos := List.length_pos_iff.mpr hx
      have hne : s.pending ≠ [] := by simp [hp, hx]
      set k := s.grant xs.length with hk
      have hle : k ≤ xs.length := s.grant_le _
      have hkpos : 0 < k := s.grant_pos hpos hne
      have hdata : s.pending.take k = xs.take k := by rw [hp, List.take_append_of_le_length hle]
      have hleft : (s.advance k).pending = xs.drop k ++ rest := by
        rw [Source.advance_pending, hp, List.drop_append_of_le_length hle]
      have hdrop : (xs.drop k).length < xs.length := by rw [List.length_drop]; omega
      obtain ⟨t,ht,htp⟩ := ih _ hdrop (buf ++ xs.take k) hleft rfl
      refine ⟨t,?_,htp⟩
      have hlen : (buf ++ xs.take k).length + (xs.drop k).length = buf.length+xs.length := by
        simp only [List.length_append, List.length_take, List.length_drop]
        omega
      rw [hlen, List.append_assoc, List.take_append_drop] at ht
      have hsub : buf.length+xs.length-buf.length = xs.length := by omega
      have hnil : xs.take k ≠ [] := by simp [hx]; omega
      rw [if_pos (by omega), hsub, sockRecv_of_ne_nil s _ hne, ← hk, hdata]
      simp only [hnil, dite_false]
      exact ht

/-- However the transport cuts, `receive` returns the payload at the front of the stream. -/
theorem receive_append {s : Source UInt8} {size data rest : Bytes}
    (hs : packUInt 4 data.length = some size) (hp : s.pending = size ++ (data ++ rest)) :
    ∃ t, receive s = .done data t ∧ t.pending = rest := by
  obtain ⟨s₁,h₁,hp₁⟩ := receiveUpTo_append [] hp
  obtain ⟨t,ht,htp⟩ := receiveUpTo_append [] hp₁
  have hlen := packUInt_length hs
  simp only [List.length_nil, Nat.zero_add, List.nil_append, hlen] at h₁ ht
  refine ⟨t,?_,htp⟩
  simp only [receive, Coro.bind_apply, h₁, Run.bind_done, unpackUInt_pack hs, ht]

/-- Successive calls of `receive` return what was sent, however the transport cuts. -/
theorem successive_receive {sent : List (Writer × Bytes)} {s : Source UInt8} {bs rest : Bytes}
    (h : stream sent = some bs) (hp : s.pending = bs ++ rest) :
    ∃ t, successive receive sent.length s = .done (sent.map Prod.snd) t ∧ t.pending = rest := by
  induction sent generalizing s bs with
  | nil =>
    cases h
    exact ⟨s,rfl,hp⟩
  | cons x sent ih =>
    obtain ⟨size,others,hs,ho,rfl⟩ := stream_cons h
    rw [List.append_assoc, List.append_assoc] at hp
    obtain ⟨s₁,h₁,hp₁⟩ := receive_append hs hp
    obtain ⟨t,ht,htp⟩ := ih ho hp₁
    refine ⟨t,?_,htp⟩
    simp only [List.length_cons, successive, Coro.bind_apply, h₁, Run.bind_done, ht,
      Coro.pure_apply, List.map_cons]

/-- The two reads of a frame, made by the calls `k` and `k+1`, get all they ask for. -/
def Uncut (cut : Cut) (k : ℕ) (data : Bytes) : Prop :=
  4 ≤ cut k 4 ∧ data.length ≤ max 1 (cut (k+1) data.length)

/-- No read of a frame is cut, from call `k` on. -/
def NeverCut (cut : Cut) : ℕ → List Bytes → Prop
  | _,[] => True
  | k,data::payloads => Uncut cut k data ∧ NeverCut cut (k+2) payloads

theorem successive_cons {reader : Coro Exn (Source UInt8) Bytes} {k : ℕ} {s t : Source UInt8}
    {data : Bytes} {others : List Bytes} :
    successive reader (k+1) s = .done (data::others) t ↔
      ∃ s', reader s = .done data s' ∧ successive reader k s' = .done others t := by
  constructor
  · intro h
    obtain ⟨data',s',hr,h⟩ := Run.bind_eq_done h
    obtain ⟨others',t',ho,h⟩ := Run.bind_eq_done h
    cases h
    exact ⟨s',hr,ho⟩
  · rintro ⟨s',hr,ho⟩
    simp only [successive, Coro.bind_apply, hr, Run.bind_done, ho, Coro.pure_apply]

/-- `receive_async` returns the payload at the front of the stream exactly if its reads are not
cut. -/
theorem receiveAsync_append {s t : Source UInt8} {size data rest : Bytes}
    (hs : packUInt 4 data.length = some size) (hp : s.pending = size ++ (data ++ rest)) :
    receiveAsync s = .done data t ↔
      Uncut s.cut s.calls data ∧ t = (s.advance 4).advance data.length := by
  have hlen := packUInt_length hs
  have hne : s.pending ≠ [] := by
    rw [hp, ← List.length_pos_iff, List.length_append, hlen]
    omega
  have hg : s.grant 4 = 4 ↔ 4 ≤ s.cut s.calls 4 := by
    unfold Source.grant
    rw [hp, List.length_append, hlen]
    omega
  by_cases h4 : s.grant 4 = 4
  · have hleft : (s.advance 4).pending = data ++ rest := by
      rw [Source.advance_pending, hp, List.drop_left' hlen]
    have hsize : ofNetworkOrder (s.pending.take 4) = data.length := by
      rw [hp, List.take_left' hlen, ofNetworkOrder_pack hs]
    rw [receiveAsync_whole hne h4, hsize]
    by_cases hd : data = []
    · subst hd
      rw [List.length_nil, sockRecv_zero]
      simp [Uncut, hg.mp h4, eq_comm]
    · have hmore : (s.advance 4).pending ≠ [] := by
        rw [hleft]
        exact List.append_ne_nil_of_left_ne_nil hd rest
      rw [sockRecv_of_ne_nil _ _ hmore, hleft]
      have hgrant : (s.advance 4).grant data.length = data.length ↔
          data.length ≤ max 1 (s.cut (s.calls+1) data.length) := by
        simp only [Source.grant, hleft, List.length_append]
        change min (max 1 (s.cut (s.calls+1) data.length)) _ = _ ↔ _
        omega
      constructor
      · intro h
        obtain ⟨hdata,rfl⟩ := Run.done.inj h
        have hk : (s.advance 4).grant data.length = data.length := by
          have := congrArg List.length hdata
          rw [List.length_take, List.length_append] at this
          have := (s.advance 4).grant_le data.length
          omega
        exact ⟨⟨hg.mp h4,hgrant.mp hk⟩,by rw [hk]⟩
      · rintro ⟨hu,rfl⟩
        rw [hgrant.mpr hu.2, List.take_left]
  · rw [receiveAsync_cut hne h4]
    exact ⟨nofun,fun ⟨hu,_⟩ => absurd (hg.mpr hu.1) h4⟩

/-- Successive calls of `receive_async` return what was sent exactly if none of their reads is
cut. -/
theorem successive_receiveAsync {sent : List (Writer × Bytes)} {s : Source UInt8}
    (h : stream sent = some s.pending) :
    (∃ t, successive receiveAsync sent.length s = .done (sent.map Prod.snd) t) ↔
      NeverCut s.cut s.calls (sent.map Prod.snd) := by
  induction sent generalizing s with
  | nil => exact ⟨fun _ => trivial,fun _ => ⟨s,rfl⟩⟩
  | cons x sent ih =>
    obtain ⟨w,data⟩ := x
    obtain ⟨size,others,hs,ho,hp⟩ := stream_cons h
    have hlen := packUInt_length hs
    set s' := (s.advance 4).advance data.length with hs'
    have hp' : s'.pending = others := by
      rw [hs', Source.advance_pending, Source.advance_pending, hp, List.drop_left' hlen,
        List.drop_left]
    have hrest := ih (s := s') (by rw [hp']; exact ho)
    simp only [List.length_cons, List.map_cons, successive_cons, receiveAsync_append hs hp, NeverCut]
    constructor
    · rintro ⟨t,-,⟨hu,rfl⟩,ht⟩
      exact ⟨hu,hrest.mp ⟨t,ht⟩⟩
    · rintro ⟨hu,hn⟩
      obtain ⟨t,ht⟩ := hrest.mpr hn
      exact ⟨t,s',⟨hu,rfl⟩,ht⟩

end Frame

/-- As many calls as there were payloads sent return these, whichever reader makes them. -/
def ReadersAgree (sent : List (Writer × Bytes)) (s : Source UInt8) : Prop :=
  (∃ t, Frame.successive Frame.receive sent.length s = .done (sent.map Prod.snd) t) ∧
    ∃ t, Frame.successive Frame.receiveAsync sent.length s = .done (sent.map Prod.snd) t

/-- The readers agree exactly where the transport cuts no read of `receive_async`: a length prefix
that is cut raises, and a payload that is cut is returned as it is, what is left of it being taken
for the next length. -/
theorem readers_agree_iff_never_cut {sent : List (Writer × Bytes)} {s : Source UInt8}
    (h : Frame.stream sent = some s.pending) :
    ReadersAgree sent s ↔ Frame.NeverCut s.cut s.calls (sent.map Prod.snd) := by
  unfold ReadersAgree
  rw [Frame.successive_receiveAsync h, and_iff_right_iff_imp]
  intro _
  obtain ⟨t,ht,-⟩ := Frame.successive_receive h (List.append_nil s.pending).symm
  exact ⟨t,ht⟩

/-- Two payloads, the second of them empty, read whole from a stream that stays open. -/
theorem readers_agree_whole :
    ReadersAgree [(.send,[7,8]),(.sendAsync,[])]
      ⟨[0,0,0,2,7,8,0,0,0,0],.silent,Cut.whole,0⟩ := by
  refine (readers_agree_iff_never_cut rfl).mpr ⟨⟨?_,?_⟩,⟨?_,?_⟩,trivial⟩ <;>
    simp [Cut.whole]

/-- The second read of the only frame is answered with one byte of two, which is returned. -/
theorem readers_disagree_cut :
    ¬ ∀ (sent : List (Writer × Bytes)) (s : Source UInt8),
      Frame.stream sent = some s.pending → ReadersAgree sent s := by
  intro h
  obtain ⟨-,t,ht⟩ := h [(.sendAsync,[7,8])]
    ⟨[0,0,0,2,7,8],.silent,fun k n => if k = 0 then n else 1,0⟩ rfl
  cases ht

end PeerConnect.Wire
