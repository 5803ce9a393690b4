import CExercises.Framing.Def

/-!
# Framing survives any fragmentation

However the stream is split, `recv_all` takes as many bytes as it was asked for, or all there are;
`recvAllFrom_spec` says so once, and the fragmentation does not appear in anything after it.  A
frame is then read off whole, and the socket stands at the next one.
-/

namespace CExercises.Framing

section

variable {buf : Block UInt8}

/-- **`recv`** returns some of the bytes, and at least one if there is one and one was asked for. -/
lemma recv_spec (choice : ℕ → ℕ) (s : Socket) (off k : ℕ)
    (hcov : buf.Covers 0 ((off + k : ℕ) - 1)) :
    ∃ r, recv choice s buf off k
        = .ok (r, ⟨s.stream.drop r, s.calls + 1⟩,
            buf.withCells (writeSeg buf.cells off (s.stream.take r)))
      ∧ r ≤ min k s.stream.length ∧ (r = 0 → min k s.stream.length = 0) := by
  have hle : (if min k s.stream.length = 0 then 0
      else 1 + choice s.calls % min k s.stream.length) ≤ min k s.stream.length := by
    split_ifs with hzero
    · omega
    · have := Nat.mod_lt (choice s.calls) (Nat.pos_of_ne_zero hzero)
      omega
  refine ⟨_, ?_, hle, fun hr => ?_⟩
  · have hstore := hcov.storeAll off
      (s.stream.take (if min k s.stream.length = 0 then 0
        else 1 + choice s.calls % min k s.stream.length)) (by omega)
      (by rw [List.length_take]; omega)
    simp only [recv, hstore, ok_bind, pure_eq_ok]
  · by_contra hne
    rw [if_neg hne] at hr
    omega

/-- **`recv_all`** takes `n` bytes, or all that are left. -/
lemma recvAllFrom_spec (choice : ℕ → ℕ) (n m : ℕ) : ∀ (s : Socket) (buf : Block UInt8) (total : ℕ),
    n - total = m → total ≤ n → buf.Covers 0 (n - 1) →
    ∃ calls, recvAllFrom choice s buf n total
        = .ok (total + min (n - total) s.stream.length, ⟨s.stream.drop (n - total), calls⟩,
            buf.withCells (writeSeg buf.cells total (s.stream.take (n - total)))) := by
  induction m using Nat.strongRecOn with
  | ind m ih =>
      intro s buf total hm hle hcov
      by_cases hlt : total < n
      · rcases recv_spec choice s total (n - total)
          (by rw [show total + (n - total) = n by omega]; exact hcov) with ⟨r, hrecv, hr, hzero⟩
        rw [recvAllFrom, if_pos hlt, hrecv]
        simp only [ok_bind]
        by_cases hr0 : r ≤ 0
        · -- the peer has closed
          have hr0' : r = 0 := by omega
          have hnil : s.stream = [] := by
            have := hzero hr0'
            exact List.length_eq_zero_iff.mp (by omega)
          refine ⟨s.calls + 1, ?_⟩
          simp [hr0', hnil, writeSeg]
        · rcases ih (n - (total + r)) (by omega) ⟨s.stream.drop r, s.calls + 1⟩
            (buf.withCells (writeSeg buf.cells total (s.stream.take r))) (total + r) rfl (by omega)
            (hcov.withCells _) with ⟨calls, hrun⟩
          refine ⟨calls, ?_⟩
          have hlen : ((s.stream.take r).length : ℤ) = r := by rw [List.length_take]; omega
          have hsplit : s.stream.take r ++ (s.stream.drop r).take (n - (total + r))
              = s.stream.take (n - total) := by
            rw [← List.take_add, show r + (n - (total + r)) = n - total by omega]
          have hwrite : writeSeg (writeSeg buf.cells total (s.stream.take r)) ((total + r : ℕ) : ℤ)
              ((s.stream.drop r).take (n - (total + r)))
              = writeSeg buf.cells total (s.stream.take (n - total)) := by
            rw [← hsplit, ← writeSeg_append, hlen, Int.natCast_add]
          have hcount : total + r + min (n - (total + r)) (s.stream.drop r).length
              = total + min (n - total) s.stream.length := by
            rw [List.length_drop]
            omega
          have hdrop : (s.stream.drop r).drop (n - (total + r)) = s.stream.drop (n - total) := by
            rw [List.drop_drop, show r + (n - (total + r)) = n - total by omega]
          rw [if_neg hr0, hrun]
          simp only [Block.withCells_cells, Block.withCells_withCells, hwrite, hcount, hdrop]
      · refine ⟨s.calls, ?_⟩
        rw [recvAllFrom, if_neg hlt, show n - total = 0 by omega]
        simp [writeSeg]

lemma recvAll_spec (choice : ℕ → ℕ) (s : Socket) {n : ℕ} (hcov : buf.Covers 0 (n - 1)) :
    ∃ calls, recvAll choice s buf n
        = .ok (min n s.stream.length, ⟨s.stream.drop n, calls⟩,
            buf.withCells (writeSeg buf.cells 0 (s.stream.take n))) := by
  rcases recvAllFrom_spec choice n _ s buf 0 rfl (Nat.zero_le n) hcov with ⟨calls, hrun⟩
  exact ⟨calls, by simpa [recvAll] using hrun⟩

/-! ## One frame -/

/-- The buffer holds the message as a C string, and the call returned its length. -/
structure Delivers (m : CStr) (r : ℤ × Block UInt8) : Prop where
  ret : r.1 = m.strlen
  fits : r.2.first ≤ 0 ∧ (m.strlen : ℤ) ≤ r.2.last
  bytes : seg r.2.cells 0 (m.strlen - 1) = m.bytes
  nul : r.2.cells m.strlen = 0

/-- `uint8_t len`. -/
lemma covers_lenCell : (Block.ofCells 1 fun _ : ℤ => (0 : UInt8)).Covers 0 ((1 : ℕ) - 1) :=
  ⟨le_refl _, le_refl _⟩

/-- At the end of the stream `recv_msg` reports it and leaves the buffer alone. -/
lemma recvMsg_closed (choice : ℕ → ℕ) (calls : ℕ) (buf : Block UInt8) (bufsz : ℕ) :
    ∃ calls', recvMsg choice ⟨[], calls⟩ buf bufsz = .ok (-1, ⟨[], calls'⟩, buf) := by
  rcases recvAll_spec choice ⟨[], calls⟩ covers_lenCell with ⟨calls', hrun⟩
  refine ⟨calls', ?_⟩
  simp only [recvMsg, hrun, ok_bind]
  simp

/-- The buffer holds the bytes as a C string, and the call returned their number. -/
structure DeliversBytes (bs : List UInt8) (r : ℤ × Block UInt8) : Prop where
  ret : r.1 = bs.length
  fits : r.2.first ≤ 0 ∧ (bs.length : ℤ) ≤ r.2.last
  bytes : seg r.2.cells 0 (bs.length - 1) = bs
  nul : r.2.cells bs.length = 0

/-- The terminator goes past the bytes. -/
lemma deliversBytes_write {bs : List UInt8} (hcov : buf.Covers 0 bs.length) :
    DeliversBytes bs
      (bs.length, buf.withCells (Function.update (writeSeg buf.cells 0 bs) bs.length 0)) := by
  refine ⟨rfl, ⟨hcov.first_le, hcov.le_last⟩, ?_, Function.update_self _ _ _⟩
  have hseg := seg_writeSeg buf.cells 0 bs
  rw [Int.zero_add] at hseg
  refine Eq.trans (seg_congr fun k hk hk' => ?_) hseg
  exact Function.update_of_ne (by omega) _ _

/-- The length the receiver goes by, clamped to its buffer. -/
lemma clamp_eq (len : UInt8) {bufsz : ℕ} (hpos : 1 ≤ bufsz) :
    (if len.toNat ≥ bufsz then UInt8.ofNat ((bufsz + (sizeMod - 1)) % sizeMod) else len).toNat
      = min len.toNat (bufsz - 1) := by
  have hlen := len.toNat_lt
  split_ifs with hclamp
  · have hwrap : (bufsz + (sizeMod - 1)) % sizeMod = bufsz - 1 := by
      unfold sizeMod
      omega
    rw [hwrap, UInt8.toNat_ofNat']
    omega
  · omega

/-- **One call of `recv_msg`** on a stream that has a byte left.  It takes that byte for a length,
clamps it to its buffer, and delivers that many of the bytes that follow, or all there are. -/
lemma recvMsg_cons (choice : ℕ → ℕ) (calls : ℕ) (len : UInt8) (tl : List UInt8) {bufsz : ℕ}
    (hpos : 1 ≤ bufsz) (hcov : buf.Covers 0 (bufsz - 1)) :
    ∃ calls' g, recvMsg choice ⟨len :: tl, calls⟩ buf bufsz
        = .ok ((tl.take (min len.toNat (bufsz - 1))).length,
            ⟨tl.drop (min len.toNat (bufsz - 1)), calls'⟩, buf.withCells g)
      ∧ DeliversBytes (tl.take (min len.toNat (bufsz - 1)))
          ((tl.take (min len.toNat (bufsz - 1))).length, buf.withCells g) := by
  set k := min len.toNat (bufsz - 1) with hk
  have hclamp := clamp_eq len hpos
  rw [← hk] at hclamp
  rcases recvAll_spec choice ⟨len :: tl, calls⟩ covers_lenCell with ⟨calls₁, hrun₁⟩
  rcases recvAll_spec choice ⟨tl, calls₁⟩
    (hcov.mono (le_refl 0) (show (k : ℤ) - 1 ≤ bufsz - 1 by omega)) with ⟨calls₂, hrun₂⟩
  have hlength : min k tl.length = (tl.take k).length := (List.length_take ..).symm
  have hroom : ((tl.take k).length : ℤ) ≤ bufsz - 1 := by
    rw [List.length_take]
    omega
  have hstore : (buf.withCells (writeSeg buf.cells 0 (tl.take k))).store (tl.take k).length 0
      = .ok (buf.withCells
          (Function.update (writeSeg buf.cells 0 (tl.take k)) (tl.take k).length 0)) :=
    (hcov.withCells _).store (by omega) hroom
  simp only [List.length_cons, List.drop_succ_cons, List.drop_zero, List.take_succ_cons,
    List.take_zero, writeSeg, Nat.min_eq_left (Nat.succ_le_succ (Nat.zero_le _))] at hrun₁
  have hload : ((Block.ofCells 1 fun _ : ℤ => (0 : UInt8)).withCells
      (Function.update (fun _ => 0) 0 len)).load 0 = .ok len := by
    rw [(covers_lenCell.withCells _).load (le_refl 0) (le_refl 0), Block.withCells_cells,
      Function.update_self]
  refine ⟨calls₂, Function.update (writeSeg buf.cells 0 (tl.take k)) (tl.take k).length 0, ?_,
    deliversBytes_write (hcov.mono (le_refl 0) hroom)⟩
  have hofCells : (Block.ofCells 1 fun _ : ℤ => (0 : UInt8)).cells = fun _ => 0 := rfl
  rw [hofCells] at hrun₁
  rw [hlength] at hrun₂
  simp only [recvMsg, hrun₁, hload, ok_bind, hclamp, hrun₂, hstore, pure_eq_ok, ne_eq,
    not_true_eq_false, if_false]

/-- What `send_msg` puts behind the length byte. -/
def payload (m : CStr) : List UInt8 := m.bytes.take (m.strlen % 256)

lemma length_payload (m : CStr) : (payload m).length = m.strlen % 256 := by
  have := Nat.mod_le m.strlen 256
  rw [payload, List.length_take]
  exact Nat.min_eq_left this

lemma sendMsg_eq (m : CStr) : sendMsg m = UInt8.ofNat m.strlen :: payload m := by
  simp only [sendMsg, payload, UInt8.toNat_ofNat']

/-- `recv_msg` at the start of a frame. -/
lemma recvMsg_sendMsg (choice : ℕ → ℕ) (calls : ℕ) (m : CStr) (rest : List UInt8) {bufsz : ℕ}
    (hpos : 1 ≤ bufsz) (hcov : buf.Covers 0 (bufsz - 1)) :
    ∃ calls' g, recvMsg choice ⟨sendMsg m ++ rest, calls⟩ buf bufsz
        = .ok (((payload m).take (bufsz - 1)).length,
            ⟨(payload m).drop (bufsz - 1) ++ rest, calls'⟩, buf.withCells g)
      ∧ DeliversBytes ((payload m).take (bufsz - 1))
          (((payload m).take (bufsz - 1)).length, buf.withCells g) := by
  have hcons := recvMsg_cons choice calls (UInt8.ofNat m.strlen) (payload m ++ rest) hpos hcov
  have hlen : (UInt8.ofNat m.strlen).toNat = (payload m).length := by
    rw [length_payload, UInt8.toNat_ofNat']
  have htake : (payload m ++ rest).take (min (payload m).length (bufsz - 1))
      = (payload m).take (bufsz - 1) := by
    rw [List.take_append_of_le_length (Nat.min_le_left _ _), Nat.min_comm, ← List.take_eq_take_min]
  have hdrop : (payload m ++ rest).drop (min (payload m).length (bufsz - 1))
      = (payload m).drop (bufsz - 1) ++ rest := by
    rw [List.drop_append_of_le_length (Nat.min_le_left _ _), Nat.min_comm, ← List.drop_eq_drop_min]
  rw [hlen, htake, hdrop] at hcons
  rw [sendMsg_eq]
  exact hcons

/-- **One frame.**  A message that fits is delivered whole, and the socket stands at whatever was
sent after it. -/
lemma recvMsg_frame (choice : ℕ → ℕ) (calls : ℕ) (rest : List UInt8) {m : CStr} {bufsz : ℕ}
    (h255 : m.strlen ≤ 255) (hfits : m.strlen < bufsz) (hcov : buf.Covers 0 (bufsz - 1)) :
    ∃ calls' g, recvMsg choice ⟨sendMsg m ++ rest, calls⟩ buf bufsz
        = .ok (m.strlen, ⟨rest, calls'⟩, buf.withCells g)
      ∧ Delivers m (m.strlen, buf.withCells g) := by
  have hbytes : m.bytes.length = m.strlen := rfl
  have hpay : payload m = m.bytes := by
    rw [payload, Nat.mod_eq_of_lt (by omega), ← hbytes, List.take_length]
  rcases recvMsg_sendMsg choice calls m rest (show 1 ≤ bufsz by omega) hcov with
    ⟨calls', g, hrun, hdel⟩
  rw [hpay, List.take_of_length_le (by omega), List.drop_of_length_le (by omega),
    List.nil_append] at hrun
  rw [hpay, List.take_of_length_le (by omega)] at hdel
  exact ⟨calls', g, hrun, hdel.ret, hdel.fits, hdel.bytes, hdel.nul⟩

/-! ## All frames -/

/-- **The receiver stays in step** with the sender over any number of frames. -/
lemma recvMsgs_frames (choice : ℕ → ℕ) (bufsz : ℕ) : ∀ (msgs : List CStr) (rest : List UInt8)
    (calls : ℕ) (buf : Block UInt8), (∀ m ∈ msgs, m.strlen ≤ 255 ∧ m.strlen < bufsz) →
    buf.Covers 0 (bufsz - 1) →
    ∃ rs calls' g, recvMsgs choice bufsz msgs.length ⟨msgs.flatMap sendMsg ++ rest, calls⟩ buf
        = .ok (rs, ⟨rest, calls'⟩, buf.withCells g)
      ∧ List.Forall₂ Delivers msgs rs := by
  intro msgs
  induction msgs with
  | nil =>
      intro rest calls buf _ _
      exact ⟨[], calls, buf.cells, rfl, List.Forall₂.nil⟩
  | cons m msgs ih =>
      intro rest calls buf hmsgs hcov
      rcases hmsgs m List.mem_cons_self with ⟨h255, hfits⟩
      rcases recvMsg_frame choice calls (msgs.flatMap sendMsg ++ rest) h255 hfits hcov with
        ⟨calls₁, g₁, hrun₁, hdel⟩
      rcases ih rest calls₁ (buf.withCells g₁) (fun x hx => hmsgs x (List.mem_cons_of_mem m hx))
        (hcov.withCells g₁) with ⟨rs, calls₂, g₂, hrun₂, hall⟩
      refine ⟨(m.strlen, buf.withCells g₁) :: rs, calls₂, g₂, ?_, List.Forall₂.cons hdel hall⟩
      rw [List.flatMap_cons, List.append_assoc, List.length_cons]
      simp only [recvMsgs, hrun₁, hrun₂, ok_bind, pure_eq_ok, Block.withCells_withCells]

/-- **Round trip.**  Whatever is sent in frames that fit is received, message by message, and the
end of the stream is reported as such, however the stream was split on the way. -/
theorem framing_round_trip (choice : ℕ → ℕ) (bufsz : ℕ) (content : ℤ → UInt8) (msgs : List CStr)
    (hmsgs : ∀ m ∈ msgs, m.strlen ≤ 255 ∧ m.strlen < bufsz) :
    ∃ rs s buf, recvMsgs choice bufsz msgs.length ⟨msgs.flatMap sendMsg, 0⟩
        (Block.ofCells bufsz content) = .ok (rs, s, buf)
      ∧ List.Forall₂ Delivers msgs rs
      ∧ ∃ s', recvMsg choice s buf bufsz = .ok (-1, s', buf) := by
  have hcov : (Block.ofCells bufsz content).Covers 0 (bufsz - 1) := ⟨le_refl _, le_refl _⟩
  rcases recvMsgs_frames choice bufsz msgs [] 0 _ hmsgs hcov with ⟨rs, calls, g, hrun, hall⟩
  rw [List.append_nil] at hrun
  rcases recvMsg_closed choice calls ((Block.ofCells bufsz content).withCells g) bufsz with
    ⟨calls', hend⟩
  exact ⟨rs, ⟨[], calls⟩, _, hrun, hall, ⟨[], calls'⟩, hend⟩

/-- A message of two bytes, an empty one and one of one byte, received a byte at a time. -/
theorem framing_round_trip_bytewise :
    ∃ rs s buf, recvMsgs (fun _ => 0) 64 3
        ⟨[⟨[104, 105], by simp⟩, ⟨[], by simp⟩, ⟨[33], by simp⟩].flatMap sendMsg, 0⟩
        (Block.ofCells (64 : ℕ) fun _ => 0) = .ok (rs, s, buf)
      ∧ List.Forall₂ Delivers [⟨[104, 105], by simp⟩, ⟨[], by simp⟩, ⟨[33], by simp⟩] rs
      ∧ ∃ s', recvMsg (fun _ => 0) s buf 64 = .ok (-1, s', buf) :=
  framing_round_trip (fun _ => 0) 64 (fun _ => 0)
    [⟨[104, 105], by simp⟩, ⟨[], by simp⟩, ⟨[33], by simp⟩]
    (by simp [CStr.strlen])

end

end CExercises.Framing
