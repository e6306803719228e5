import Mathlib

namespace Osisp.Lib

/-- The `k` low bytes of a number, the lowest first. -/
def leBytes : Nat → Nat → List UInt8
  | 0, _ => []
  | k + 1, n => (n % 256).toUInt8 :: leBytes k (n / 256)

/-- The number with these bytes. -/
def leVal : List UInt8 → Nat
  | [] => 0
  | b :: bs => b.toNat + 256 * leVal bs

@[simp] theorem leBytes_length (k n : Nat) : (leBytes k n).length = k := by
  induction k generalizing n with
  | zero => rfl
  | succ k ih => simp [leBytes, ih]

theorem leVal_leBytes {k n : Nat} (h : n < 256 ^ k) : leVal (leBytes k n) = n := by
  induction k generalizing n with
  | zero =>
    have hn : n = 0 := by simpa using h
    rw [hn]
    rfl
  | succ k ih =>
    rw [Nat.pow_succ] at h
    have hq : n / 256 < 256 ^ k := Nat.div_lt_of_lt_mul (by omega)
    have hb : (n % 256).toUInt8.toNat = n % 256 := by
      simp [Nat.toUInt8, UInt8.toNat_ofNat']
    rw [leBytes, leVal, ih hq, hb]
    omega

theorem leBytes_leVal (bs : List UInt8) : leBytes bs.length (leVal bs) = bs := by
  induction bs with
  | nil => rfl
  | cons b bs ih =>
    have hlt := b.toNat_lt
    have hb : (leVal (b :: bs) % 256).toUInt8 = b := by
      rw [leVal, Nat.add_mul_mod_self_left, Nat.mod_eq_of_lt hlt]
      exact UInt8.ofNat_toNat
    have hbs : leVal (b :: bs) / 256 = leVal bs := by
      rw [leVal]
      omega
    rw [List.length_cons, leBytes, hb, hbs, ih]

theorem leVal_lt (bs : List UInt8) : leVal bs < 256 ^ bs.length := by
  induction bs with
  | nil => exact Nat.one_pos
  | cons b bs ih =>
    have hlt := b.toNat_lt
    rw [leVal, List.length_cons, Nat.pow_succ]
    omega

section Chunks

variable {α : Type*}

/-- Cuts a list into `count` chunks of `m` elements. -/
def cut : Nat → Nat → List α → List (List α)
  | 0, _, _ => []
  | count + 1, m, xs => xs.take m :: cut count m (xs.drop m)

theorem cut_chunks {count m : Nat} {xs : List α} (h : xs.length = count * m) :
    (cut count m xs).flatten = xs ∧ (cut count m xs).length = count ∧
      ∀ r ∈ cut count m xs, r.length = m := by
  induction count generalizing xs with
  | zero =>
    rw [Nat.zero_mul] at h
    obtain rfl := List.length_eq_zero_iff.mp h
    exact ⟨rfl, rfl, nofun⟩
  | succ count ih =>
    rw [Nat.succ_mul] at h
    have hdrop : (xs.drop m).length = count * m := by
      rw [List.length_drop]
      omega
    obtain ⟨hflat, hcount, hm⟩ := ih hdrop
    refine ⟨?_, ?_, ?_⟩
    · rw [cut, List.flatten_cons, hflat, List.take_append_drop]
    · rw [cut, List.length_cons, hcount]
    · intro r hr
      rcases List.mem_cons.mp hr with rfl | hr
      · rw [List.length_take]
        omega
      · exact hm r hr

theorem exists_chunks {count m : Nat} {xs : List α} (h : xs.length = count * m) :
    ∃ chunks : List (List α), chunks.flatten = xs ∧ chunks.length = count ∧
      ∀ r ∈ chunks, r.length = m :=
  ⟨cut count m xs, cut_chunks h⟩

theorem chunks_split {m i : Nat} {chunks : List (List α)} {b : List α}
    (hm : ∀ r ∈ chunks, r.length = m) (hb : chunks[i]? = some b) :
    ∃ pre post : List (List α), pre.flatten.length = m * i ∧ chunks = pre ++ b :: post ∧
      ∀ y, chunks.set i y = pre ++ y :: post := by
  obtain ⟨hi, rfl⟩ := List.getElem?_eq_some_iff.mp hb
  refine ⟨chunks.take i, chunks.drop (i + 1), ?_, ?_, fun y => ?_⟩
  · have hall : ∀ r ∈ chunks.take i, r.length = m := fun r hr => hm r (List.mem_of_mem_take hr)
    rw [List.length_flatten, List.map_congr_left hall, List.map_const', List.sum_replicate_nat,
      List.length_take, Nat.min_eq_left (Nat.le_of_lt hi), Nat.mul_comm]
  · rw [List.getElem_cons_drop, List.take_append_drop]
  · rw [List.set_eq_take_append_cons_drop, if_pos hi]

end Chunks

/-- Values that are kept in cells of `width` bytes. -/
structure Codec (α : Type*) where
  width : Nat
  enc : α → List UInt8
  dec : List UInt8 → α
  enc_length : ∀ x, (enc x).length = width
  dec_enc : ∀ x, dec (enc x) = x

namespace Codec

variable {α : Type*} (c : Codec α)

/-- The bytes of consecutive cells. -/
def encode (xs : List α) : List UInt8 := xs.flatMap c.enc

/-- The values of the `n` cells from position `pos` on. -/
def load (pos n : Nat) (bytes : List UInt8) : List α :=
  (List.range n).map fun i => c.dec ((bytes.drop (pos + c.width * i)).take c.width)

/-- Overwrites the cells from position `pos` on. -/
def store (pos : Nat) (xs : List α) (bytes : List UInt8) : List UInt8 :=
  bytes.take pos ++ c.encode xs ++ bytes.drop (pos + c.width * xs.length)

@[simp] theorem encode_append (xs ys : List α) : c.encode (xs ++ ys) = c.encode xs ++ c.encode ys :=
  List.flatMap_append

@[simp] theorem encode_length (xs : List α) : (c.encode xs).length = c.width * xs.length := by
  induction xs with
  | nil => rfl
  | cons x xs ih =>
    have hcons : c.encode (x :: xs) = c.enc x ++ c.encode xs := rfl
    rw [hcons, List.length_append, c.enc_length, ih, List.length_cons, Nat.mul_succ, Nat.add_comm]

@[simp] theorem load_length (pos n : Nat) (bytes : List UInt8) :
    (c.load pos n bytes).length = n := by
  rw [load, List.length_map, List.length_range]

theorem load_add (pos m n : Nat) (bytes : List UInt8) :
    c.load pos (m + n) bytes = c.load pos m bytes ++ c.load (pos + c.width * m) n bytes := by
  simp only [load, List.range_add, List.map_append, List.map_map, Nat.mul_add, Nat.add_assoc,
    Function.comp_def]

/-- Cells in the middle of the bytes are read back. -/
theorem load_encode {pos : Nat} {front : List UInt8} (hpos : front.length = pos) (xs : List α)
    (back : List UInt8) : c.load pos xs.length (front ++ c.encode xs ++ back) = xs := by
  induction xs generalizing pos front with
  | nil => rfl
  | cons x xs ih =>
    have hcons : c.encode (x :: xs) = c.enc x ++ c.encode xs := rfl
    have hfront : (front ++ c.enc x).length = pos + c.width := by
      rw [List.length_append, c.enc_length, hpos]
    have hrest := ih hfront
    rw [List.append_assoc front] at hrest
    rw [load, List.length_cons, List.range_succ_eq_map, List.map_cons, List.map_map, hcons]
    congr 1
    · simp [← hpos, c.enc_length, c.dec_enc]
    · refine Eq.trans (List.map_congr_left fun i _ => ?_) hrest
      have hcell : pos + c.width * i.succ = pos + c.width + c.width * i := by
        rw [Nat.succ_eq_add_one, Nat.mul_add]
        omega
      simp only [Function.comp_apply, List.append_assoc, hcell]

/-- Where any `width` bytes are a value's, the cells that were read are in the bytes. -/
theorem encode_load (henc : ∀ bs : List UInt8, bs.length = c.width → c.enc (c.dec bs) = bs)
    {pos n : Nat} {bytes : List UInt8} (h : pos + c.width * n ≤ bytes.length) :
    c.encode (c.load pos n bytes) = (bytes.drop pos).take (c.width * n) := by
  induction n with
  | zero =>
    rw [Nat.mul_zero, List.take_zero]
    rfl
  | succ n ih =>
    rw [Nat.mul_succ] at h ⊢
    have hlast : c.encode (c.load (pos + c.width * n) 1 bytes) =
        (bytes.drop (pos + c.width * n)).take c.width := by
      have hcell : ((bytes.drop (pos + c.width * n)).take c.width).length = c.width := by
        rw [List.length_take, List.length_drop]
        omega
      have hone := henc _ hcell
      simpa [encode, load] using hone
    rw [c.load_add, c.encode_append, ih (by omega), hlast, List.take_add, List.drop_drop]

theorem store_encode {pos : Nat} {front : List UInt8} (hpos : front.length = pos) {xs ys : List α}
    (hlen : xs.length = ys.length) (back : List UInt8) :
    c.store pos ys (front ++ c.encode xs ++ back) = front ++ c.encode ys ++ back := by
  have hdrop : (front ++ c.encode xs ++ back).drop (pos + c.width * ys.length) = back := by
    rw [List.drop_append_of_le_length (by simp [hpos, hlen]), List.drop_eq_nil_of_le
      (by simp [hpos, hlen]), List.nil_append]
  rw [store, hdrop, List.append_assoc front, List.take_append_of_le_length (by omega),
    List.take_of_length_le (by omega)]

theorem load_chunk {pos m i : Nat} {front : List UInt8} (hpos : front.length = pos)
    {chunks : List (List α)} (hm : ∀ r ∈ chunks, r.length = m) {b : List α}
    (hb : chunks[i]? = some b) (back : List UInt8) :
    c.load (pos + c.width * (m * i)) m (front ++ c.encode chunks.flatten ++ back) = b := by
  obtain ⟨pre, post, hlen, rfl, -⟩ := chunks_split hm hb
  have hfront : (front ++ c.encode pre.flatten).length = pos + c.width * (m * i) := by
    rw [List.length_append, c.encode_length, hpos, hlen]
  have hload := c.load_encode hfront b (c.encode post.flatten ++ back)
  rw [hm b (by simp)] at hload
  rw [List.flatten_append, List.flatten_cons, c.encode_append, c.encode_append]
  simpa only [List.append_assoc] using hload

/-- Overwriting a chunk leaves the other chunks. -/
theorem store_chunk {pos m i : Nat} {front : List UInt8} (hpos : front.length = pos)
    {chunks : List (List α)} (hm : ∀ r ∈ chunks, r.length = m) {b y : List α}
    (hb : chunks[i]? = some b) (hy : y.length = m) (back : List UInt8) :
    c.store (pos + c.width * (m * i)) y (front ++ c.encode chunks.flatten ++ back) =
      front ++ c.encode (chunks.set i y).flatten ++ back := by
  obtain ⟨pre, post, hlen, hchunks, hset⟩ := chunks_split hm hb
  have hfront : (front ++ c.encode pre.flatten).length = pos + c.width * (m * i) := by
    rw [List.length_append, c.encode_length, hpos, hlen]
  have hby : b.length = y.length := by
    rw [hy, hm b (by simp [hchunks])]
  have hstore := c.store_encode hfront hby (c.encode post.flatten ++ back)
  rw [hset, hchunks, List.flatten_append, List.flatten_cons, List.flatten_append,
    List.flatten_cons]
  simp only [c.encode_append]
  simpa only [List.append_assoc] using hstore

end Codec

end Osisp.Lib
