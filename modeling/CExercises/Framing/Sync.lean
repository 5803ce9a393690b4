import CExercises.Framing.RoundTrip

/-!
# When the receiver falls out of step

A receiver with a small buffer clamps the length of a message and reads no more of it.  What it did
not read stays in the stream, and the next `recv_msg` takes it for a frame.  The sender, on its
side, keeps only the low eight bits of a length, and sends that many bytes.

`InStep` is what one would expect of one `recv_msg`: as much of the message as fits, and the stream
at the next frame.  It holds for messages of at most 255 bytes that fit the buffer.  There is one
coincidence besides: a longer message of which the sender happens to send exactly as many bytes as
the buffer has room for.
-/

namespace CExercises.Framing

variable {choice : ℕ → ℕ} {calls bufsz : ℕ} {content : ℤ → UInt8} {m : CStr} {rest : List UInt8}

/-- The message `m`, followed by `rest`, is received as far as it fits, and if `rest` starts with
another frame, the next call of `recv_msg` delivers what was sent in it. -/
def InStep (choice : ℕ → ℕ) (calls : ℕ) (content : ℤ → UInt8) (m : CStr) (rest : List UInt8)
    (bufsz : ℕ) : Prop :=
  ∃ n s buf, recvMsg choice ⟨sendMsg m ++ rest, calls⟩ (Block.ofCells bufsz content) bufsz
      = .ok (n, s, buf)
    ∧ DeliversBytes (m.bytes.take (min m.strlen (bufsz - 1))) (n, buf)
    ∧ s.stream = rest
    ∧ ∀ next rest', rest = sendMsg next ++ rest' →
        ∃ n' s' buf', recvMsg choice s buf bufsz = .ok (n', s', buf')
          ∧ DeliversBytes ((payload next).take (bufsz - 1)) (n', buf')

/-- What `recv_msg` really does, in the terms of `InStep`: the receiver takes what the sender sent
of the message, as far as it fits, and is in step if that is all of it. -/
lemma inStep_iff_taken (hpos : 1 ≤ bufsz) :
    InStep choice calls content m rest bufsz
      ↔ m.strlen % 256 ≤ bufsz - 1 ∧ m.strlen % 256 = min m.strlen (bufsz - 1) := by
  have hcov : (Block.ofCells bufsz content).Covers 0 (bufsz - 1) := ⟨le_refl _, le_refl _⟩
  have hlength : m.bytes.length = m.strlen := rfl
  rcases recvMsg_sendMsg choice calls m rest hpos hcov with ⟨calls', g, hrun, hdel⟩
  constructor
  · rintro ⟨n, s, buf, hrun', hdel', hstream, _⟩
    rw [hrun] at hrun'
    cases hrun'
    have hall : (payload m).drop (bufsz - 1) = [] := List.append_left_eq_self.mp hstream
    have hle := List.drop_eq_nil_iff.mp hall
    have hret := hdel'.ret
    simp only [List.length_take, length_payload, hlength] at hret hle
    omega
  · rintro ⟨hle, hmin⟩
    have htaken : (payload m).take (bufsz - 1) = m.bytes.take (min m.strlen (bufsz - 1)) := by
      rw [payload, List.take_take, ← hmin, Nat.min_eq_right hle]
    have hnone : (payload m).drop (bufsz - 1) = [] :=
      List.drop_of_length_le (by rw [length_payload]; exact hle)
    rw [htaken, hnone, List.nil_append] at hrun
    rw [htaken] at hdel
    refine ⟨_, _, _, hrun, hdel, rfl, ?_⟩
    rintro next rest' rfl
    rcases recvMsg_sendMsg choice calls' next rest' hpos (hcov.withCells g) with
      ⟨calls'', g', hrun', hdel'⟩
    exact ⟨_, _, _, hrun', hdel'⟩

/-- **The receiver stays in step exactly** on messages of at most 255 bytes that are shorter than
its buffer, and on those of which the sender sends exactly what the buffer can hold. -/
theorem recv_msg_in_step_iff (choice : ℕ → ℕ) (calls : ℕ) (content : ℤ → UInt8) (m : CStr)
    (rest : List UInt8) (bufsz : ℕ) (hpos : 1 ≤ bufsz) :
    InStep choice calls content m rest bufsz
      ↔ (m.strlen ≤ 255 ∧ m.strlen < bufsz) ∨ bufsz = m.strlen % 256 + 1 := by
  rw [inStep_iff_taken hpos]
  omega

/-- Two bytes into a buffer of 64, and so on to the next message. -/
theorem recv_msg_in_step_iff_fits :
    1 ≤ 64 ∧
      InStep (fun _ => 0) 0 (fun _ => 0) ⟨[104, 105], by simp⟩ (sendMsg ⟨[33], by simp⟩) 64 :=
  ⟨by decide, (recv_msg_in_step_iff _ _ _ _ _ 64 (by decide)).mpr
    (Or.inl (by simp [CStr.strlen]))⟩

/-- `"hello"` into a buffer of four bytes: three of them are delivered, the other two stay in front
of the frame of `"bye"`. -/
theorem recv_msg_out_of_step :
    (∃ n s buf, recvMsg (fun _ => 0)
        ⟨sendMsg ⟨[104, 101, 108, 108, 111], by simp⟩ ++ sendMsg ⟨[98, 121, 101], by simp⟩, 0⟩
        (Block.ofCells (4 : ℕ) fun _ => 0) 4 = .ok (n, s, buf)
      ∧ n = 3 ∧ s.stream = [108, 111] ++ sendMsg ⟨[98, 121, 101], by simp⟩)
    ∧ ¬ InStep (fun _ => 0) 0 (fun _ => 0) ⟨[104, 101, 108, 108, 111], by simp⟩
        (sendMsg ⟨[98, 121, 101], by simp⟩) 4 := by
  constructor
  · rcases recvMsg_sendMsg (fun _ => 0) 0 ⟨[104, 101, 108, 108, 111], by simp⟩
      (sendMsg ⟨[98, 121, 101], by simp⟩) (show 1 ≤ 4 by decide)
      (⟨le_refl _, le_refl _⟩ : (Block.ofCells (4 : ℕ) fun _ => (0 : UInt8)).Covers 0 ((4 : ℕ) - 1))
      with ⟨calls, g, hrun, _⟩
    exact ⟨_, _, _, hrun, rfl, rfl⟩
  · rw [inStep_iff_taken (by decide)]
    simp [CStr.strlen]

end CExercises.Framing
