import ContentVault.Digest.Digester
import Mathlib.Data.List.Basic

/-!
# Digests of streams

However a message is cut into pieces, feeding them one after the other gives the digest
of the whole message: between two pieces an accumulator is as if everything before had
been fed at once.
-/

namespace ContentVault.Digest

section FoldBlocks

variable {State : Type} {blockSize : Nat} {compress : State → Bytes → State}

theorem foldBlocks_add (first second : Nat) (state : State) (bytes : Bytes) :
    foldBlocks blockSize compress (first + second) state bytes =
      foldBlocks blockSize compress second (foldBlocks blockSize compress first state bytes)
        (bytes.drop (first * blockSize)) := by
  induction first generalizing state bytes with
  | zero => simp [foldBlocks]
  | succ first ih =>
    rw [Nat.succ_add, foldBlocks, ih, foldBlocks, List.drop_drop, Nat.succ_mul,
      Nat.add_comm blockSize]

/-- Full blocks do not depend on the bytes behind them. -/
theorem foldBlocks_append {count : Nat} {bytes : Bytes} (more : Bytes) (state : State)
    (hfull : count * blockSize ≤ bytes.length) :
    foldBlocks blockSize compress count state (bytes ++ more) =
      foldBlocks blockSize compress count state bytes := by
  induction count generalizing state bytes with
  | zero => rfl
  | succ count ih =>
    rw [Nat.succ_mul] at hfull
    have hblock : blockSize ≤ bytes.length := by omega
    rw [foldBlocks, foldBlocks, List.take_append_of_le_length hblock,
      List.drop_append_of_le_length hblock]
    apply ih
    rw [List.length_drop]
    omega

end FoldBlocks

namespace BlockHash

variable (H : BlockHash)

theorem ready_mul_le (length : Nat) : H.ready length * H.blockSize ≤ length := by
  rw [ready]
  split
  · exact Nat.le_trans (Nat.div_mul_le_self _ _) (Nat.sub_le _ _)
  · exact Nat.div_mul_le_self _ _

/-- The blocks that become ready do not depend on when those before them were taken. -/
theorem ready_add (hblock : 0 < H.blockSize) (length more : Nat) :
    H.ready (length + more) =
      H.ready length + H.ready (length - H.ready length * H.blockSize + more) := by
  have hle := H.ready_mul_le length
  cases hwaits : H.waits with
  | false =>
    simp only [ready, hwaits, Bool.false_eq_true, if_false] at hle ⊢
    have hsum : length + more =
        (length - length / H.blockSize * H.blockSize + more) +
          length / H.blockSize * H.blockSize := by omega
    conv_lhs => rw [hsum, Nat.add_mul_div_right _ _ hblock]
    exact Nat.add_comm _ _
  | true =>
    simp only [ready, hwaits, if_true] at hle ⊢
    -- Of a message that is not empty at least one byte waits.
    rcases Nat.eq_zero_or_pos length with rfl | hpos
    · simp
    · have hlt := Nat.div_mul_le_self (length - 1) H.blockSize
      have hsum : length + more - 1 =
          (length - (length - 1) / H.blockSize * H.blockSize + more - 1) +
            (length - 1) / H.blockSize * H.blockSize := by omega
      conv_lhs => rw [hsum, Nat.add_mul_div_right _ _ hblock]
      exact Nat.add_comm _ _

end BlockHash

namespace Accumulator

variable {H : BlockHash}

def ofMessage (H : BlockHash) (message : Bytes) : Accumulator H where
  state := H.absorb (H.ready message.length) H.initial message
  pending := message.drop (H.ready message.length * H.blockSize)
  length := message.length

theorem ofMessage_nil : ofMessage H [] = start H := by
  have hready : H.ready 0 = 0 := by
    rw [BlockHash.ready]
    split <;> simp
  simp [ofMessage, start, hready, BlockHash.absorb, foldBlocks]

theorem finalize_ofMessage (message : Bytes) : (ofMessage H message).finalize = H.hash message :=
  rfl

/-- Feeding more bytes is as if they had been part of the message from the beginning. -/
theorem update_ofMessage (hblock : 0 < H.blockSize) (message data : Bytes) :
    (ofMessage H message).update data = ofMessage H (message ++ data) := by
  have hle := H.ready_mul_le message.length
  have hlength : (message.drop (H.ready message.length * H.blockSize) ++ data).length =
      message.length - H.ready message.length * H.blockSize + data.length := by
    rw [List.length_append, List.length_drop]
  have hready := H.ready_add hblock message.length data.length
  rw [← hlength, ← List.length_append] at hready
  have hpending : message.drop (H.ready message.length * H.blockSize) ++ data =
      (message ++ data).drop (H.ready message.length * H.blockSize) := by
    rw [List.drop_append_of_le_length hle]
  have hstate : H.absorb (H.ready message.length) H.initial message =
      H.absorb (H.ready message.length) H.initial (message ++ data) :=
    (foldBlocks_append data H.initial hle).symm
  simp only [update, ofMessage, mk.injEq]
  refine ⟨?_, ?_, List.length_append.symm⟩
  · rw [hready, hstate, hpending]
    exact (foldBlocks_add _ _ _ _).symm
  · rw [hready, hpending, List.drop_drop, Nat.add_mul]

end Accumulator

theorem Algorithm.blockSize_pos (algorithm : Algorithm) : 0 < algorithm.blockHash.blockSize := by
  cases algorithm <;> decide

namespace Digester

def fed (digester : Digester) (pieces : List Bytes) : Digester :=
  pieces.foldl update digester

def ofMessage (algorithm : Algorithm) (message : Bytes) : Digester :=
  .hashing algorithm (Accumulator.ofMessage algorithm.blockHash message)

theorem start_eq_ofMessage (algorithm : Algorithm) : start algorithm = ofMessage algorithm [] := by
  rw [start, ofMessage, Accumulator.ofMessage_nil]

theorem update_ofMessage (algorithm : Algorithm) (message data : Bytes) :
    (ofMessage algorithm message).update data = ofMessage algorithm (message ++ data) := by
  rw [ofMessage, update, Accumulator.update_ofMessage algorithm.blockSize_pos]
  rfl

theorem fed_ofMessage (algorithm : Algorithm) (message : Bytes) (pieces : List Bytes) :
    (ofMessage algorithm message).fed pieces = ofMessage algorithm (message ++ pieces.flatten) := by
  induction pieces generalizing message with
  | nil => rw [List.flatten_nil, List.append_nil, fed, List.foldl_nil]
  | cons piece pieces ih =>
    rw [List.flatten_cons, ← List.append_assoc, ← ih, ← update_ofMessage]
    rfl

theorem fed_start (algorithm : Algorithm) (pieces : List Bytes) :
    (start algorithm).fed pieces = ofMessage algorithm pieces.flatten := by
  rw [start_eq_ofMessage, fed_ofMessage, List.nil_append]

/-- The digest of what was fed in pieces is the digest of the whole. -/
theorem finalize_fed_start (algorithm : Algorithm) (pieces : List Bytes) :
    ((start algorithm).fed pieces).finalize = algorithm.hash pieces.flatten := by
  rw [fed_start]
  exact Accumulator.finalize_ofMessage _

theorem clone_fed_start (algorithm : Algorithm) (pieces : List Bytes) :
    ((start algorithm).fed pieces).clone = .ok ((start algorithm).fed pieces) := by
  rw [fed_start]
  rfl

end Digester

end ContentVault.Digest
