import CExercises.Framing.RoundTrip

/-!
# Streams that end in the middle of a frame

`recv_all` reports the end of the stream by a short count.  `recv_msg` checks the count when it
reads the length byte and does not check it when it reads the payload, so a frame whose payload is
cut off is delivered as a shorter message.

A stream cut between two frames is reported as it should be: `OnBoundary` is the condition, and it
is exact.  The induction over the messages follows the same three cases for the first frame on both
sides: the cut is before it, inside it, or behind it.
-/

namespace CExercises.Framing

variable {choice : ℕ → ℕ} {bufsz cut : ℕ} {m : CStr} {msgs : List CStr}

/-- The bytes of a sequence of messages. -/
def frames (msgs : List CStr) : List UInt8 := msgs.flatMap sendMsg

/-- Frame number `i` lies within the first `cut` bytes, length byte and payload. -/
def FrameComplete (msgs : List CStr) (cut i : ℕ) : Prop :=
  i < msgs.length ∧ (frames (msgs.take (i + 1))).length ≤ cut

/-- However often `recv_msg` is called on the stream of these messages, cut after `cut` bytes, a
call returns -1 if and only if its frame is not there in full. -/
def ReportsBroken (choice : ℕ → ℕ) (bufsz : ℕ) (msgs : List CStr) (cut calls : ℕ)
    (buf : Block UInt8) : Prop :=
  ∀ k, ∃ rs s buf', recvMsgs choice bufsz k ⟨(frames msgs).take cut, calls⟩ buf = .ok (rs, s, buf')
    ∧ rs.length = k
    ∧ ∀ i r, rs[i]? = some r → (r.1 = -1 ↔ ¬ FrameComplete msgs cut i)

/-- The cut does not fall inside a frame. -/
def OnBoundary (msgs : List CStr) (cut : ℕ) : Prop :=
  ∃ j, (frames msgs).take cut = frames (msgs.take j)

lemma length_sendMsg (m : CStr) : (sendMsg m).length = (payload m).length + 1 := by
  rw [sendMsg_eq, List.length_cons]

@[simp] lemma frames_nil : frames [] = [] := rfl

@[simp] lemma frames_cons : frames (m :: msgs) = sendMsg m ++ frames msgs := rfl

@[simp] lemma frameComplete_nil {i : ℕ} : ¬ FrameComplete [] cut i := by
  rintro ⟨hi, _⟩
  exact absurd hi (Nat.not_lt_zero i)

lemma frameComplete_zero : FrameComplete (m :: msgs) cut 0 ↔ (sendMsg m).length ≤ cut := by
  simp [FrameComplete, frames]

lemma frameComplete_succ {i : ℕ} (h : (sendMsg m).length ≤ cut) :
    FrameComplete (m :: msgs) cut (i + 1) ↔ FrameComplete msgs (cut - (sendMsg m).length) i := by
  simp only [FrameComplete, List.length_cons, List.take_succ_cons, frames_cons, List.length_append]
  omega

/-- A frame that is cut off, or cut away. -/
lemma not_frameComplete {i : ℕ} (h : cut < (sendMsg m).length) :
    ¬ FrameComplete (m :: msgs) cut i := by
  rintro ⟨_, hle⟩
  simp only [List.take_succ_cons, frames_cons, List.length_append] at hle
  omega

/-! ## The calls -/

/-- At the end of the stream every further call reports it. -/
lemma recvMsgs_closed (choice : ℕ → ℕ) (bufsz : ℕ) (buf : Block UInt8) : ∀ (k calls : ℕ),
    ∃ calls', recvMsgs choice bufsz k ⟨[], calls⟩ buf
      = .ok (List.replicate k (-1, buf), ⟨[], calls'⟩, buf)
  | 0, calls => ⟨calls, rfl⟩
  | k + 1, calls => by
      rcases recvMsg_closed choice calls buf bufsz with ⟨calls₁, hrun₁⟩
      rcases recvMsgs_closed choice bufsz buf k calls₁ with ⟨calls₂, hrun₂⟩
      refine ⟨calls₂, ?_⟩
      simp [recvMsgs, hrun₁, hrun₂, List.replicate_succ]

lemma reports_of_take_eq_nil {calls : ℕ} {buf : Block UInt8} (hnil : (frames msgs).take cut = [])
    (hnone : ∀ i, ¬ FrameComplete msgs cut i) : ReportsBroken choice bufsz msgs cut calls buf := by
  intro k
  rcases recvMsgs_closed choice bufsz buf k calls with ⟨calls', hrun⟩
  rw [hnil]
  refine ⟨_, _, _, hrun, List.length_replicate, fun i r hr => ?_⟩
  have hmem := List.mem_of_getElem? hr
  rw [List.eq_of_mem_replicate hmem]
  simp [hnone i]

/-- A first frame that is there in full: one call takes it and the others go on behind it. -/
lemma reports_cons_of_le (hfits : m.strlen % 256 < bufsz) (hle : (sendMsg m).length ≤ cut)
    (calls : ℕ) {buf : Block UInt8} (hcov : buf.Covers 0 (bufsz - 1)) :
    ∃ calls' g, ReportsBroken choice bufsz (m :: msgs) cut calls buf
      ↔ ReportsBroken choice bufsz msgs (cut - (sendMsg m).length) calls' (buf.withCells g) := by
  rcases recvMsg_sendMsg choice calls m ((frames msgs).take (cut - (sendMsg m).length))
    (show 1 ≤ bufsz by omega) hcov with ⟨calls', g, hrun, _⟩
  have hstream : (frames (m :: msgs)).take cut
      = sendMsg m ++ (frames msgs).take (cut - (sendMsg m).length) := by
    rw [frames_cons, List.take_append, List.take_of_length_le hle]
  rw [List.drop_of_length_le (by rw [length_payload]; omega), List.nil_append] at hrun
  refine ⟨calls', g, fun h k => ?_, fun h k => ?_⟩
  · rcases h (k + 1) with ⟨rs, s, buf', hruns, hlen, hall⟩
    rw [hstream] at hruns
    simp only [recvMsgs, hrun, ok_bind] at hruns
    cases hrest : recvMsgs choice bufsz k
        ⟨(frames msgs).take (cut - (sendMsg m).length), calls'⟩ (buf.withCells g) with
    | error e =>
        rw [hrest] at hruns
        cases hruns
    | ok out =>
        rw [hrest] at hruns
        cases hruns
        refine ⟨_, _, _, rfl, by simpa using hlen, fun i r hr => ?_⟩
        rw [← frameComplete_succ hle]
        exact hall (i + 1) r hr
  · cases k with
    | zero => exact ⟨[], _, _, rfl, rfl, fun i r hr => by simp at hr⟩
    | succ k =>
        rcases h k with ⟨rs, s, buf', hruns, hlen, hall⟩
        rw [hstream]
        refine ⟨(((payload m).take (bufsz - 1)).length, buf.withCells g) :: rs, s, buf',
          by simp only [recvMsgs, hrun, hruns, ok_bind, pure_eq_ok],
          by rw [List.length_cons, hlen], fun i r hr => ?_⟩
        cases i with
        | zero =>
            cases hr
            rw [frameComplete_zero]
            refine ⟨fun hneg => ?_, fun hnot => absurd hle hnot⟩
            have hnonneg := Int.natCast_nonneg ((payload m).take (bufsz - 1)).length
            omega
        | succ i =>
            rw [frameComplete_succ hle]
            exact hall i r hr

/-- A first frame whose length byte is there and whose payload is not: the call succeeds. -/
lemma not_reports_of_lt (hfits : m.strlen % 256 < bufsz) (hpos : 1 ≤ cut)
    (hlt : cut < (sendMsg m).length) (calls : ℕ) {buf : Block UInt8}
    (hcov : buf.Covers 0 (bufsz - 1)) : ¬ ReportsBroken choice bufsz (m :: msgs) cut calls buf := by
  intro h
  rcases h 1 with ⟨rs, s, buf', hruns, _, hall⟩
  have hstream : (frames (m :: msgs)).take cut
      = UInt8.ofNat m.strlen :: (payload m).take (cut - 1) := by
    rw [frames_cons, List.take_append_of_le_length (Nat.le_of_lt hlt), sendMsg_eq,
      List.take_cons (by omega)]
  rcases recvMsg_cons choice calls (UInt8.ofNat m.strlen) ((payload m).take (cut - 1))
    (show 1 ≤ bufsz by omega) hcov with ⟨calls', g, hrun, _⟩
  rw [hstream] at hruns
  simp only [recvMsgs, hrun, ok_bind, pure_eq_ok] at hruns
  cases hruns
  have hfirst := (hall 0 _ rfl).mpr (not_frameComplete hlt)
  simp only at hfirst
  omega

/-! ## The condition -/

lemma onBoundary_of_le (hle : (sendMsg m).length ≤ cut) :
    OnBoundary (m :: msgs) cut ↔ OnBoundary msgs (cut - (sendMsg m).length) := by
  have hpos := length_sendMsg m
  constructor
  · rintro ⟨j, hj⟩
    rw [frames_cons, List.take_append, List.take_of_length_le hle] at hj
    cases j with
    | zero =>
        have hlen := congrArg List.length hj
        rw [List.length_append, List.take_zero, frames_nil, List.length_nil] at hlen
        omega
    | succ j =>
        rw [List.take_succ_cons, frames_cons] at hj
        exact ⟨j, List.append_cancel_left hj⟩
  · rintro ⟨j, hj⟩
    refine ⟨j + 1, ?_⟩
    rw [frames_cons, List.take_append, List.take_of_length_le hle, hj, List.take_succ_cons,
      frames_cons]

lemma not_onBoundary_of_lt (hpos : 1 ≤ cut) (hlt : cut < (sendMsg m).length) :
    ¬ OnBoundary (m :: msgs) cut := by
  rintro ⟨j, hj⟩
  have hlen := congrArg List.length hj
  rw [frames_cons, List.take_append_of_le_length (Nat.le_of_lt hlt), List.length_take] at hlen
  cases j with
  | zero =>
      rw [List.take_zero, frames_nil, List.length_nil] at hlen
      omega
  | succ j =>
      rw [List.take_succ_cons, frames_cons, List.length_append] at hlen
      omega

/-- **Induction over the messages.** -/
lemma reports_iff : ∀ (msgs : List CStr) (cut calls : ℕ) (buf : Block UInt8),
    (∀ m ∈ msgs, m.strlen % 256 < bufsz) → buf.Covers 0 (bufsz - 1) →
    (ReportsBroken choice bufsz msgs cut calls buf ↔ OnBoundary msgs cut) := by
  intro msgs
  induction msgs with
  | nil =>
      intro cut calls buf _ _
      exact ⟨fun _ => ⟨0, by simp⟩, fun _ => reports_of_take_eq_nil (by simp) (by simp)⟩
  | cons m msgs ih =>
      intro cut calls buf hfits hcov
      have hm := hfits m List.mem_cons_self
      rcases Nat.lt_or_ge cut (sendMsg m).length with hlt | hle
      · rcases Nat.eq_zero_or_pos cut with rfl | hpos
        · exact ⟨fun _ => ⟨0, by simp⟩,
            fun _ => reports_of_take_eq_nil (by simp) fun i => not_frameComplete hlt⟩
        · exact iff_of_false (not_reports_of_lt hm hpos hlt calls hcov)
            (not_onBoundary_of_lt hpos hlt)
      · rcases reports_cons_of_le hm hle calls hcov with ⟨calls', g, hstep⟩
        rw [hstep, onBoundary_of_le hle]
        exact ih _ _ _ (fun x hx => hfits x (List.mem_cons_of_mem m hx)) (hcov.withCells g)

/-- **A broken stream is reported exactly when it breaks between two frames.** -/
theorem recv_msg_reports_broken_iff (choice : ℕ → ℕ) (bufsz : ℕ) (content : ℤ → UInt8)
    (msgs : List CStr) (cut : ℕ) (hfits : ∀ m ∈ msgs, (payload m).length < bufsz) :
    ReportsBroken choice bufsz msgs cut 0 (Block.ofCells bufsz content) ↔ OnBoundary msgs cut := by
  refine reports_iff msgs cut 0 _ (fun m hm => ?_) ⟨le_refl _, le_refl _⟩
  rw [← length_payload]
  exact hfits m hm

/-- Two messages of which the second is cut away. -/
theorem recv_msg_reports_broken_iff_whole :
    (∀ m ∈ ([⟨[104, 105], by simp⟩, ⟨[33], by simp⟩] : List CStr), (payload m).length < 64)
    ∧ ReportsBroken (fun _ => 0) 64 [⟨[104, 105], by simp⟩, ⟨[33], by simp⟩] 3 0
        (Block.ofCells (64 : ℕ) fun _ => 0) := by
  have hfits : ∀ m ∈ ([⟨[104, 105], by simp⟩, ⟨[33], by simp⟩] : List CStr),
      (payload m).length < 64 := by
    simp [length_payload, CStr.strlen]
  exact ⟨hfits, (recv_msg_reports_broken_iff _ 64 _ _ 3 hfits).mpr ⟨1, rfl⟩⟩

/-- `"hello"` cut after its second byte: `recv_msg` returns 2 and not -1. -/
theorem recv_msg_delivers_truncated :
    (∃ s buf, recvMsg (fun _ => 0) ⟨(frames [⟨[104, 101, 108, 108, 111], by simp⟩]).take 3, 0⟩
        (Block.ofCells (64 : ℕ) fun _ => 0) 64 = .ok (2, s, buf))
    ∧ ¬ ReportsBroken (fun _ => 0) 64 [⟨[104, 101, 108, 108, 111], by simp⟩] 3 0
        (Block.ofCells (64 : ℕ) fun _ => 0) := by
  have hcov : (Block.ofCells (64 : ℕ) fun _ => (0 : UInt8)).Covers 0 ((64 : ℕ) - 1) :=
    ⟨le_refl _, le_refl _⟩
  constructor
  · rcases recvMsg_cons (fun _ => 0) 0 5 [104, 101] (show 1 ≤ 64 by decide) hcov with
      ⟨calls, g, hrun, _⟩
    exact ⟨_, _, hrun⟩
  · exact not_reports_of_lt (by simp [CStr.strlen]) (by decide)
      (by simp [length_sendMsg, length_payload, CStr.strlen]) 0 hcov

end CExercises.Framing
