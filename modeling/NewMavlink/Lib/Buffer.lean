import Mathlib.Data.List.Basic
import Mathlib.Data.Vector.Basic
import Mathlib.Tactic.Ring

/-! # Buffers written and read at fixed offsets

A buffer is a list; `blit buf off src` stores `src` from position `off` on, one element after the
other, and stores beyond the end are dropped (as `List.set` drops them). A little-endian field of
`n` bytes is stored by `putLE` and read by `getLE`.

* `getLE_putLE`: a field reads back what was stored in it, cut to its width.
* `getLE_blit_of_disjoint`, `getLE_putLE_of_disjoint`: a store leaves every field that it does not
  overlap as it was.
* `take_putLE_eq`, `drop_putLE`: fields written one after the other make a list of their bytes, and
  leave what is behind them.
* `getLE_leBytes_append`, `getLE_append_of_le`: reading such a list, field by field.
* `leBytes_getLE`, `take_getLE_eq`: the bytes of the fields that were read are the bytes read.

`Span` is a pointer with a length, where the pointer may be null. -/

namespace NewMavlink.Lib.Buffer

variable {α : Type}

/-! ### Pointers with a length -/

/-- A pointer and a length: a null pointer with the length that came with it, or the elements. -/
inductive Span (α : Type) where
  | null (length : ℕ)
  | data (elems : List α)
deriving DecidableEq, Repr

namespace Span

/-- The length passed along with the pointer. -/
def length : Span α → ℕ
  | null n => n
  | data l => l.length

/-- The null check. -/
def isNull : Span α → Bool
  | null _ => true
  | data _ => false

/-- The elements pointed to. -/
def elems : Span α → List α
  | null _ => []
  | data l => l

@[simp] theorem length_null (n : ℕ) : (null n : Span α).length = n := rfl
@[simp] theorem length_data (l : List α) : (data l).length = l.length := rfl
@[simp] theorem isNull_null (n : ℕ) : (null n : Span α).isNull = true := rfl
@[simp] theorem isNull_data (l : List α) : (data l).isNull = false := rfl
@[simp] theorem elems_null (n : ℕ) : (null n : Span α).elems = [] := rfl
@[simp] theorem elems_data (l : List α) : (data l).elems = l := rfl

theorem length_elems {s : Span α} (h : ¬ (s.isNull = true ∧ s.length ≠ 0)) :
    s.elems.length = s.length := by
  cases s with
  | null n => simpa [eq_comm] using h
  | data l => rfl

end Span

/-! ### Storing a block -/

/-- Stores `src` in `buf` from position `off` on. -/
def blit (buf : List α) (off : ℕ) : List α → List α
  | [] => buf
  | x :: xs => blit (buf.set off x) (off + 1) xs

@[simp] theorem length_blit : ∀ (src buf : List α) (off : ℕ),
    (blit buf off src).length = buf.length
  | [], _, _ => rfl
  | x :: xs, buf, off => by rw [blit, length_blit xs, List.length_set]

/-- **What a position holds after a store.** -/
theorem getElem?_blit : ∀ (src buf : List α) (off i : ℕ),
    (blit buf off src)[i]? =
      if off ≤ i ∧ i < off + src.length ∧ i < buf.length then src[i - off]? else buf[i]?
  | [], buf, off, i => by
    rw [blit, if_neg (by simp; omega)]
  | x :: xs, buf, off, i => by
    rw [blit, getElem?_blit xs, List.length_set, List.length_cons, List.getElem?_set]
    rcases Nat.lt_trichotomy i off with h | rfl | h
    · rw [if_neg (by omega), if_neg (by omega), if_neg (by omega)]
    · rw [if_neg (by omega), if_pos rfl]
      by_cases hl : i < buf.length
      · rw [if_pos hl, if_pos (by omega)]; simp
      · rw [if_neg hl, if_neg (by omega), List.getElem?_eq_none (by omega)]
    · by_cases hc : i < off + 1 + xs.length ∧ i < buf.length
      · rw [if_pos (by omega), if_pos (by omega), show i - off = (i - (off + 1)) + 1 by omega,
          List.getElem?_cons_succ]
      · rw [if_neg (by omega), if_neg (by omega), if_neg (by omega)]

/-- The `n` elements of `buf` from position `off` on. -/
def slice (buf : List α) (off n : ℕ) : List α := (buf.drop off).take n

theorem getElem?_slice (buf : List α) (off n i : ℕ) :
    (slice buf off n)[i]? = if i < n then buf[off + i]? else none := by
  rw [slice, List.getElem?_take]; simp

theorem slice_succ {buf : List α} {off : ℕ} (h : off < buf.length) (n : ℕ) :
    slice buf off (n + 1) = buf[off] :: slice buf (off + 1) n := by
  rw [slice, List.drop_eq_getElem_cons h, List.take_succ_cons, slice]

theorem blit_append : ∀ (src src' buf : List α) (off : ℕ),
    blit buf off (src ++ src') = blit (blit buf off src) (off + src.length) src'
  | [], _, _, _ => rfl
  | x :: xs, src', buf, off => by
    rw [List.cons_append, blit, blit_append xs, blit, List.length_cons, Nat.add_assoc,
      Nat.add_comm 1]

theorem take_blit {buf src : List α} {off : ℕ} (h : off + src.length ≤ buf.length) :
    (blit buf off src).take (off + src.length) = buf.take off ++ src := by
  refine List.ext_getElem? fun i => ?_
  rw [List.getElem?_take, getElem?_blit, List.getElem?_append, List.length_take,
    Nat.min_eq_left (by omega)]
  rcases Nat.lt_or_ge i off with hi | hi
  · rw [if_pos (by omega), if_neg (by omega), if_pos hi, List.getElem?_take, if_pos hi]
  · rw [if_neg (show ¬ i < off by omega)]
    by_cases hs : i < off + src.length
    · rw [if_pos hs, if_pos (by omega)]
    · rw [if_neg hs, List.getElem?_eq_none (by omega)]

theorem take_blit_eq {off k : ℕ} {buf pre src : List α} (hk : k = off + src.length)
    (hl : k ≤ buf.length) (hp : buf.take off = pre) : (blit buf off src).take k = pre ++ src := by
  subst hk
  rw [take_blit hl, hp]

theorem drop_blit {buf src : List α} {off k : ℕ} (h : off + src.length ≤ k) :
    (blit buf off src).drop k = buf.drop k := by
  refine List.ext_getElem? fun i => ?_
  rw [List.getElem?_drop, List.getElem?_drop, getElem?_blit, if_neg (by omega)]

theorem take_blit_zero {buf src : List α} (h : src.length ≤ buf.length) :
    (blit buf 0 src).take src.length = src := by
  rw [take_blit_eq (Nat.zero_add _).symm h List.take_zero, List.nil_append]

theorem blit_zero {buf src : List α} (h : src.length ≤ buf.length) :
    blit buf 0 src = src ++ buf.drop src.length := by
  have hdrop : (blit buf 0 src).drop src.length = buf.drop src.length :=
    drop_blit (Nat.zero_add _).le
  rw [← List.take_append_drop src.length (blit buf 0 src), take_blit_zero h, hdrop]

/-! ### Little-endian fields -/

/-- Byte `i` of `v`, least significant first. -/
def byteOf (v i : ℕ) : UInt8 := UInt8.ofNat (v >>> (8 * i))

/-- The `n` low bytes of `v`. -/
def leBytes (n v : ℕ) : List UInt8 := (List.range n).map (byteOf v)

@[simp] theorem length_leBytes (n v : ℕ) : (leBytes n v).length = n := by simp [leBytes]

/-- Stores the `n` low bytes of `v`: the loop `p[i] = v >> 8 * i` for `i < n`. -/
def putLE (n : ℕ) (buf : List UInt8) (off v : ℕ) : List UInt8 := blit buf off (leBytes n v)

/-- Reads a field of `n` bytes: the loop `v |= p[i] << 8 * i` for `i < n`. -/
def getLE (n : ℕ) (buf : List UInt8) (off : ℕ) : ℕ :=
  (List.range n).foldl (fun v i => v ||| (buf.getD (off + i) 0).toNat <<< (8 * i)) 0

@[simp] theorem length_putLE (n : ℕ) (buf : List UInt8) (off v : ℕ) :
    (putLE n buf off v).length = buf.length := length_blit _ _ _

@[simp] theorem getLE_zero (buf : List UInt8) (off : ℕ) : getLE 0 buf off = 0 := rfl

theorem getLE_succ_or (n : ℕ) (buf : List UInt8) (off : ℕ) :
    getLE (n + 1) buf off = getLE n buf off ||| (buf.getD (off + n) 0).toNat <<< (8 * n) := by
  simp [getLE, List.range_succ, List.foldl_append]

theorem getLE_lt (n : ℕ) (buf : List UInt8) (off : ℕ) : getLE n buf off < 2 ^ (8 * n) := by
  induction n with
  | zero => simp
  | succ n ih =>
    rw [getLE_succ_or]
    have hb : (buf.getD (off + n) 0).toNat < 2 ^ 8 := UInt8.toNat_lt _
    refine Nat.or_lt_two_pow (lt_of_lt_of_le ih (Nat.pow_le_pow_right (by decide) (by omega))) ?_
    rw [Nat.shiftLeft_eq, show 8 * (n + 1) = 8 + 8 * n by ring, pow_add]
    exact Nat.mul_lt_mul_of_pos_right hb (Nat.two_pow_pos _)

theorem getLE_succ (n : ℕ) (buf : List UInt8) (off : ℕ) :
    getLE (n + 1) buf off = getLE n buf off + (buf.getD (off + n) 0).toNat * 2 ^ (8 * n) := by
  rw [getLE_succ_or, Nat.or_comm, ← Nat.shiftLeft_add_eq_or_of_lt (getLE_lt n buf off),
    Nat.shiftLeft_eq, Nat.add_comm]

theorem getLE_congr {n off off' : ℕ} {buf buf' : List UInt8}
    (h : ∀ i < n, buf[off + i]? = buf'[off' + i]?) : getLE n buf off = getLE n buf' off' := by
  induction n with
  | zero => rfl
  | succ n ih =>
    rw [getLE_succ, getLE_succ, ih fun i hi => h i (by omega), List.getD_eq_getElem?_getD,
      List.getD_eq_getElem?_getD, h n (by omega)]

theorem getLE_take {n off k : ℕ} {buf : List UInt8} (h : off + n ≤ k) :
    getLE n (buf.take k) off = getLE n buf off :=
  getLE_congr fun i hi => by rw [List.getElem?_take, if_pos (by omega)]

theorem getElem?_putLE {n : ℕ} {buf : List UInt8} {off v i : ℕ} (h : off + n ≤ buf.length)
    (hi : i < n) : (putLE n buf off v)[off + i]? = some (byteOf v i) := by
  rw [putLE, getElem?_blit, if_pos (by simp; omega)]
  simp [leBytes, hi]

theorem getLE_of_bytes {n off v : ℕ} {buf : List UInt8}
    (h : ∀ i < n, buf[off + i]? = some (byteOf v i)) : getLE n buf off = v % 2 ^ (8 * n) := by
  induction n with
  | zero => simp [Nat.mod_one]
  | succ n ih =>
    rw [getLE_succ, ih fun i hi => h i (by omega), List.getD_eq_getElem?_getD, h n (by omega)]
    have hb : (byteOf v n).toNat = v / 2 ^ (8 * n) % 2 ^ 8 := by
      simp [byteOf, Nat.shiftRight_eq_div_pow]
    rw [Option.getD_some, hb, show 8 * (n + 1) = 8 * n + 8 by ring, pow_add, Nat.mod_mul]
    ring

/-- **A field reads back what was stored in it**, cut to its width. -/
theorem getLE_putLE {n : ℕ} {buf : List UInt8} {off v : ℕ} (h : off + n ≤ buf.length) :
    getLE n (putLE n buf off v) off = v % 2 ^ (8 * n) :=
  getLE_of_bytes fun _ hi => getElem?_putLE h hi

theorem getLE_blit_of_disjoint {m off o : ℕ} {buf src : List UInt8}
    (h : o + m ≤ off ∨ off + src.length ≤ o) :
    getLE m (blit buf off src) o = getLE m buf o := by
  refine getLE_congr fun i hi => ?_
  rw [getElem?_blit, if_neg (by omega)]

/-- **A store leaves the other fields as they were.** -/
theorem getLE_putLE_of_disjoint {n m off o v : ℕ} {buf : List UInt8}
    (h : o + m ≤ off ∨ off + n ≤ o) :
    getLE m (putLE n buf off v) o = getLE m buf o :=
  getLE_blit_of_disjoint (by simpa using h)

theorem take_putLE {n off v : ℕ} {buf : List UInt8} (h : off + n ≤ buf.length) :
    (putLE n buf off v).take (off + n) = buf.take off ++ leBytes n v := by
  have hl : off + (leBytes n v).length ≤ buf.length := by simpa using h
  have := take_blit hl
  rwa [length_leBytes] at this

theorem take_putLE_eq {n off k v : ℕ} {buf pre : List UInt8} (hk : k = off + n)
    (hl : k ≤ buf.length) (hp : buf.take off = pre) :
    (putLE n buf off v).take k = pre ++ leBytes n v := by
  subst hk
  rw [take_putLE hl, hp]

theorem drop_putLE {n off v k : ℕ} {buf : List UInt8} (h : off + n ≤ k) :
    (putLE n buf off v).drop k = buf.drop k :=
  drop_blit (by simpa using h)

/-! ### Fields of a list of fields -/

theorem getLE_leBytes_append (n v : ℕ) (buf : List UInt8) :
    getLE n (leBytes n v ++ buf) 0 = v % 2 ^ (8 * n) := by
  refine getLE_of_bytes fun i hi => ?_
  rw [Nat.zero_add, List.getElem?_append_left (by simpa using hi)]
  simp [leBytes, hi]

theorem getLE_leBytes (n v : ℕ) : getLE n (leBytes n v) 0 = v % 2 ^ (8 * n) := by
  simpa using getLE_leBytes_append n v []

theorem getLE_append_of_le {n off : ℕ} {a b : List UInt8} (h : a.length ≤ off) :
    getLE n (a ++ b) off = getLE n b (off - a.length) :=
  getLE_congr fun i _ => by
    rw [List.getElem?_append_right (Nat.le_add_right_of_le h), Nat.sub_add_comm h]

theorem byteOf_getLE {n off i : ℕ} {buf : List UInt8} (hi : i < n) :
    byteOf (getLE n buf off) i = buf.getD (off + i) 0 := by
  induction n with
  | zero => exact absurd hi (Nat.not_lt_zero i)
  | succ n ih =>
    rw [getLE_succ]
    rcases Nat.lt_succ_iff_lt_or_eq.mp hi with hlt | rfl
    · rw [← ih hlt]
      apply UInt8.toNat_inj.mp
      have hpow : 2 ^ (8 * n) = 2 ^ 8 * 2 ^ (8 * (n - i - 1)) * 2 ^ (8 * i) := by
        rw [← pow_add, ← pow_add]
        congr 1
        omega
      simp only [byteOf, Nat.shiftRight_eq_div_pow, UInt8.toNat_ofNat']
      rw [hpow, ← Nat.mul_assoc, Nat.add_mul_div_right _ _ (Nat.two_pow_pos _),
        Nat.mul_left_comm, Nat.add_mul_mod_self_left]
    · apply UInt8.toNat_inj.mp
      simp only [byteOf, Nat.shiftRight_eq_div_pow, UInt8.toNat_ofNat']
      rw [Nat.add_mul_div_right _ _ (Nat.two_pow_pos _), Nat.div_eq_of_lt (getLE_lt i buf off),
        Nat.zero_add, Nat.mod_eq_of_lt (UInt8.toNat_lt _)]

/-- **The bytes of a field are the bytes that it was read from.** -/
theorem leBytes_getLE {n off : ℕ} {buf : List UInt8} (h : off + n ≤ buf.length) :
    leBytes n (getLE n buf off) = slice buf off n := by
  refine List.ext_getElem? fun i => ?_
  rw [getElem?_slice]
  by_cases hi : i < n
  · have hin : off + i < buf.length := by omega
    rw [if_pos hi, leBytes, List.getElem?_map, List.getElem?_range hi, Option.map_some,
      byteOf_getLE hi, List.getD_eq_getElem?_getD, List.getElem?_eq_getElem hin, Option.getD_some]
  · rw [if_neg hi, List.getElem?_eq_none (by simpa using hi)]

theorem take_getLE_eq {n k v : ℕ} {buf pre : List UInt8} (off : ℕ) (hk : k = off + n)
    (hl : k ≤ buf.length) (hv : getLE n buf off = v) (hp : buf.take off = pre) :
    buf.take k = pre ++ leBytes n v := by
  subst hk
  rw [← hv, leBytes_getLE hl, ← hp, slice, List.take_add]

theorem getLE_replicate_zero (n k off : ℕ) : getLE n (List.replicate k 0) off = 0 := by
  induction n with
  | zero => rfl
  | succ n ih =>
    rw [getLE_succ, ih, List.getD_eq_getElem?_getD, List.getElem?_replicate]
    split_ifs <;> simp

end NewMavlink.Lib.Buffer
