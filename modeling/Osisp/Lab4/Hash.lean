import Osisp.Lab4.Verification

namespace Osisp.Lab4

open Osisp.Lib

/-- The bytes `data[0..size)`. -/
def Message.bytes (msg : Message) : List UInt8 := msg.data.toList.take msg.size.toNat

/-- `type` and these bytes, added up as natural numbers. -/
def Message.byteSum (msg : Message) : Nat := msg.type.toNat + (msg.bytes.map UInt8.toNat).sum

/-- The comparison in `consumer_process`. -/
def Message.hashMatches (msg : Message) : Bool := calculateHash msg == msg.hash

/-- `type` or one of the bytes `data[0..size)` has become another byte. -/
inductive OneByteChanged (msg : Message) : Message → Prop where
  | type (b : UInt8) : b ≠ msg.type → OneByteChanged msg { msg with type := b }
  | data (i : Fin maxDataSize) (b : UInt8) : i.val < msg.size.toNat → b ≠ msg.data.get i →
    OneByteChanged msg { msg with data := msg.data.set i b }

theorem size_lt (msg : Message) : msg.size.toNat < maxDataSize := msg.size.toNat_lt

theorem take_data_succ (msg : Message) {i : Nat} (hi : i < maxDataSize) :
    msg.data.toList.take (i + 1) = msg.data.toList.take i ++ [msg.data.getD i 0] := by
  have hget : msg.data.toList[i]? = some (msg.data.getD i 0) := by
    rw [Vector.getD, Array.getD_eq_getD_getElem?, Vector.getElem?_toArray, Vector.getElem?_toList,
      Vector.getElem?_eq_getElem hi]
    rfl
  rw [List.take_add_one, hget]
  rfl

theorem tally_take_le (msg : Message) (i : Nat) :
    tally UInt8.toNat (msg.data.toList.take i) ≤ i * 255 := by
  have hbytes : ∀ b ∈ msg.data.toList.take i, b.toNat ≤ 255 := fun b _ =>
    Nat.le_of_lt_succ b.toNat_lt
  have hlen : (msg.data.toList.take i).length ≤ i := List.length_take_le _ _
  exact (tally_le_mul hbytes).trans (Nat.mul_le_mul_right 255 hlen)

/-- Up to `size` the sum fits into 16 bits. -/
theorem partialHash_toNat (msg : Message) {i : Nat} (hi : i ≤ msg.size.toNat) :
    (partialHash msg i).toNat =
      msg.type.toNat + ((msg.data.toList.take i).map UInt8.toNat).sum := by
  change _ = _ + tally UInt8.toNat _
  induction i with
  | zero => rfl
  | succ i ih =>
    have hsize := size_lt msg
    have hcell : i < maxDataSize := by omega
    have htype := msg.type.toNat_lt
    have hbound := tally_take_le msg (i + 1)
    have hstep : tally UInt8.toNat (msg.data.toList.take (i + 1)) =
        tally UInt8.toNat (msg.data.toList.take i) + (msg.data.getD i 0).toNat := by
      rw [take_data_succ msg hcell, tally_append]
      rfl
    rw [maxDataSize] at hsize
    rw [partialHash_succ, UInt16.toNat_add, ih (Nat.le_of_succ_le hi), UInt8.toNat_toUInt16, hstep]
    omega

theorem calculateHash_toNat (msg : Message) : (calculateHash msg).toNat = msg.byteSum :=
  partialHash_toNat msg (Nat.le_refl _)

theorem calculateHash_eq_iff {msg msg' : Message} :
    calculateHash msg = calculateHash msg' ↔ msg.byteSum = msg'.byteSum := by
  rw [← UInt16.toNat_inj, calculateHash_toNat, calculateHash_toNat]

theorem OneByteChanged.hash {msg msg' : Message} (h : OneByteChanged msg msg') :
    msg'.hash = msg.hash := by
  cases h with
  | type b hb => rfl
  | data i b hi hb => rfl

theorem OneByteChanged.byteSum_ne {msg msg' : Message} (h : OneByteChanged msg msg') :
    msg'.byteSum ≠ msg.byteSum := by
  cases h with
  | type b hb =>
    intro hsum
    have hbyte : b.toNat = msg.type.toNat := Nat.add_right_cancel hsum
    exact hb (UInt8.toNat_inj.mp hbyte)
  | data i b hi hb =>
    intro hsum
    have hget : msg.bytes[i.val]? = some (msg.data.get i) := by
      rw [Message.bytes, List.getElem?_take_of_lt hi, Vector.getElem?_toList]
      exact Vector.getElem?_eq_getElem i.isLt
    have hset : { msg with data := msg.data.set i b }.bytes = msg.bytes.set i b := by
      rw [Message.bytes, Message.bytes, Vector.toList_set, List.take_set]
    have hsame : tally UInt8.toNat (msg.bytes.set i b) = tally UInt8.toNat msg.bytes := by
      rw [← hset]
      exact Nat.add_left_cancel hsum
    have hbyte := (tally_set_eq_iff UInt8.toNat hget b).mp hsame
    exact hb (UInt8.toNat_inj.mp hbyte)

theorem OneByteChanged.not_matches {msg msg' : Message} (h : OneByteChanged msg msg')
    (hgenuine : msg.hash = calculateHash msg) : msg'.hashMatches = false := by
  rw [Message.hashMatches, beq_eq_false_iff_ne, h.hash, hgenuine]
  intro heq
  exact h.byteSum_ne (calculateHash_eq_iff.mp heq)

/-- The hash never wraps, and after any change of one byte of a message from `generate_message` it
is another one. -/
theorem hash_detects_change :
    (∀ msg : Message, (∀ i ≤ msg.size.toNat, (partialHash msg i).toNat =
        msg.type.toNat + ((msg.data.toList.take i).map UInt8.toNat).sum) ∧
      (calculateHash msg).toNat = msg.byteSum) ∧
    ∀ (rand : Nat → Nat) (stack msg : Message), OneByteChanged (generateMessage rand stack) msg →
      msg.hashMatches = false := by
  constructor
  · intro msg
    exact ⟨fun i hi => partialHash_toNat msg hi, calculateHash_toNat msg⟩
  · intro rand stack msg h
    exact h.not_matches (generateMessage_hash rand stack)

/-- A message of type 1 with the bytes 3 and 4. -/
def generated : Message := generateMessage (fun i => i + 1) .zero

def second : Fin maxDataSize := ⟨1, by decide⟩

theorem hash_detects_change_second :
    ({ generated with data := generated.data.set second 9 } : Message).hashMatches = false := by
  have hsize : second.val < generated.size.toNat := by decide
  have hne : (9 : UInt8) ≠ generated.data.get second := by decide +kernel
  exact hash_detects_change.2 (fun i => i + 1) .zero _ (.data second 9 hsize hne)

end Osisp.Lab4
