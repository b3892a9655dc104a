import NewMavlink.Lib.Buffer

/-! # Array accesses that may be out of range

A computation that indexes arrays returns its result, or stops at the first access that is out of
range (`Fault`). `readAt` and `writeAt` are the accesses; what else touches an array is a loop over
them.

* `readAt_eq_ok_iff`, `writeAt_eq_ok_iff`: an access returns exactly if its index is in range.
* `foldlM_eq_ok`: a loop whose body does not fault is the loop without checks.
* `readLE_eq`, `readBlock_eq`, `scan_eq`, `allAt_eq`, `writeBlock_eq`, `fill_eq`: in range, the
  loops do what the functions of `Buffer` and the folds over a slice do.
* `orM_eq`: the second operand of a disjunction is evaluated only if the first one is false.

`WritesBelow k` is the frame of what is written before position `k`. -/

namespace NewMavlink.Lib.Indexing

open NewMavlink.Lib.Buffer

/-- An access out of range: the index, and how many elements there are. -/
inductive Fault where
  | read (index size : ℕ)
  | write (index size : ℕ)
deriving DecidableEq, Repr

/-- A computation that accesses arrays. -/
abbrev Access (α : Type) : Type := Except Fault α

variable {α β σ ι : Type} {n off k : ℕ}

@[simp] theorem ok_bind (x : α) (f : α → Access β) : ((.ok x : Access α) >>= f) = f x := rfl

@[simp] theorem pure_eq_ok (x : α) : (pure x : Access α) = .ok x := rfl

/-- A disjunction that does not fault, whose second operand is evaluated only if the first one is
false. -/
theorem orM_eq {x y : Access Bool} {b c : Bool} (hx : x = .ok b) (hy : b = false → y = .ok c) :
    orM x y = .ok (b || c) := by
  subst hx
  cases b with
  | true => rfl
  | false => exact hy rfl

/-! ### One access -/

/-- `p[i]`, read. -/
def readAt (p : List α) (i : ℕ) : Access α :=
  match p[i]? with
  | some x => .ok x
  | none => .error (.read i p.length)

/-- `a[i] = x`. -/
def writeAt (a : List.Vector α n) (i : ℕ) (x : α) : Access (List.Vector α n) :=
  if h : i < n then .ok (a.set ⟨i, h⟩ x) else .error (.write i n)

/-- **A read returns exactly if its index is in range.** -/
theorem readAt_eq_ok_iff {p : List α} {i : ℕ} {x : α} : readAt p i = .ok x ↔ p[i]? = some x := by
  unfold readAt
  cases p[i]? <;> simp

/-- **A write returns exactly if its index is in range.** -/
theorem writeAt_eq_ok_iff {a b : List.Vector α n} {i : ℕ} {x : α} :
    writeAt a i x = .ok b ↔ i < n ∧ b.toList = a.toList.set i x := by
  unfold writeAt
  by_cases h : i < n
  · rw [dif_pos h, Except.ok.injEq, and_iff_right h]
    constructor
    · rintro rfl
      exact List.Vector.toList_set ..
    · intro hb
      exact List.Vector.eq _ _ ((List.Vector.toList_set ..).trans hb.symm)
  · rw [dif_neg h]
    simp [h]

theorem readAt_getElem {p : List α} {i : ℕ} (h : i < p.length) : readAt p i = .ok p[i] :=
  readAt_eq_ok_iff.mpr (List.getElem?_eq_getElem h)

theorem readAt_getD {p : List α} {i : ℕ} (h : i < p.length) (d : α) :
    readAt p i = .ok (p.getD i d) := by
  rw [readAt_getElem h, List.getD_eq_getElem?_getD, List.getElem?_eq_getElem h, Option.getD_some]

/-! ### Loops that read -/

/-- **A loop whose body does not fault** is the loop without checks. -/
theorem foldlM_eq_ok {body : σ → ι → Access σ} {step : σ → ι → σ} :
    ∀ {l : List ι} (_ : ∀ i ∈ l, ∀ s, body s i = .ok (step s i)) (s : σ),
      l.foldlM body s = .ok (l.foldl step s)
  | [], _, _ => rfl
  | i :: l, h, s => by
    rw [List.foldlM_cons, h i List.mem_cons_self, ok_bind, List.foldl_cons]
    exact foldlM_eq_ok (fun j hj => h j (List.mem_cons_of_mem i hj)) _

/-- Reads a field of `k` bytes: the loop `v |= p[off + i] << 8 * i` for `i < k`. -/
def readLE (k : ℕ) (p : List UInt8) (off : ℕ) : Access ℕ :=
  (List.range k).foldlM (fun v i => do return v ||| (← readAt p (off + i)).toNat <<< (8 * i)) 0

theorem readLE_eq {p : List UInt8} (h : off + k ≤ p.length) :
    readLE k p off = .ok (getLE k p off) := by
  refine foldlM_eq_ok (fun i hi v => ?_) 0
  have hin : off + i < p.length := by
    have := List.mem_range.mp hi
    omega
  rw [readAt_getD hin 0, ok_bind, pure_eq_ok]

/-- Reads `k` elements from position `off` on. -/
def readBlock (p : List α) (off : ℕ) : ℕ → Access (List α)
  | 0 => .ok []
  | k + 1 => do
    let x ← readAt p off
    return x :: (← readBlock p (off + 1) k)

theorem readBlock_eq {p : List α} : ∀ {k off : ℕ}, off + k ≤ p.length →
    readBlock p off k = .ok (slice p off k)
  | 0, off, _ => by rw [readBlock, slice, List.take_zero]
  | k + 1, off, h => by
    have hin : off < p.length := by omega
    have hrest : off + 1 + k ≤ p.length := by omega
    rw [readBlock, readAt_getElem hin, readBlock_eq hrest, slice_succ hin]
    rfl

/-- The loop `s = f(s, p[i])` over `k` elements from position `off` on. -/
def scan (f : σ → α → σ) (p : List α) (off : ℕ) : ℕ → σ → Access σ
  | 0, s => .ok s
  | k + 1, s => do scan f p (off + 1) k (f s (← readAt p off))

theorem scan_eq {f : σ → α → σ} {p : List α} : ∀ {k off : ℕ} {s : σ}, off + k ≤ p.length →
    scan f p off k s = .ok ((slice p off k).foldl f s)
  | 0, off, s, _ => by rw [scan, slice, List.take_zero, List.foldl_nil]
  | k + 1, off, s, h => by
    have hin : off < p.length := by omega
    have hrest : off + 1 + k ≤ p.length := by omega
    rw [scan, readAt_getElem hin, ok_bind, scan_eq hrest, slice_succ hin, List.foldl_cons]

/-- Whether `k` elements from position `off` on all are `f`; the loop stops at the first that is
not. -/
def allAt (f : α → Bool) (p : List α) (off : ℕ) : ℕ → Access Bool
  | 0 => .ok true
  | k + 1 => do if f (← readAt p off) then allAt f p (off + 1) k else return false

theorem allAt_eq {f : α → Bool} {p : List α} : ∀ {k off : ℕ}, off + k ≤ p.length →
    allAt f p off k = .ok ((slice p off k).all f)
  | 0, off, _ => by rw [allAt, slice, List.take_zero, List.all_nil]
  | k + 1, off, h => by
    have hin : off < p.length := by omega
    have hrest : off + 1 + k ≤ p.length := by omega
    rw [allAt, readAt_getElem hin, ok_bind, allAt_eq hrest, slice_succ hin, List.all_cons]
    cases f p[off] <;> rfl

/-! ### Loops that write -/

/-- Stores `src` from position `off` on, without checks: what does not fit is dropped. -/
def store (a : List.Vector α n) (off : ℕ) (src : List α) : List.Vector α n :=
  ⟨blit a.toList off src, by simp⟩

@[simp] theorem toList_store (a : List.Vector α n) (off : ℕ) (src : List α) :
    (store a off src).toList = blit a.toList off src := List.Vector.toList_mk ..

@[simp] theorem store_nil (a : List.Vector α n) (off : ℕ) : store a off [] = a :=
  List.Vector.eq _ _ (toList_store ..)

theorem store_store {a : List.Vector α n} {src src' : List α} {off' : ℕ}
    (h : off' = off + src.length) :
    store (store a off src) off' src' = store a off (src ++ src') := by
  subst h
  refine List.Vector.eq _ _ ?_
  rw [toList_store, toList_store, toList_store, blit_append]

theorem toList_store_zero {a : List.Vector α n} {src : List α} (h : src.length ≤ n) :
    (store a 0 src).toList = src ++ a.toList.drop src.length := by
  rw [toList_store, blit_zero (by rwa [List.Vector.toList_length])]

theorem writeAt_eq {a : List.Vector α n} {i : ℕ} (h : i < n) (x : α) :
    writeAt a i x = .ok (store a i [x]) :=
  writeAt_eq_ok_iff.mpr ⟨h, toList_store ..⟩

/-- Writes `src` from position `off` on. -/
def writeBlock (a : List.Vector α n) (off : ℕ) : List α → Access (List.Vector α n)
  | [] => .ok a
  | x :: xs => do writeBlock (← writeAt a off x) (off + 1) xs

theorem writeBlock_eq : ∀ {src : List α} {a : List.Vector α n} {off : ℕ}, off + src.length ≤ n →
    writeBlock a off src = .ok (store a off src)
  | [], a, off, _ => by rw [writeBlock, store_nil]
  | x :: xs, a, off, h => by
    rw [List.length_cons] at h
    have hin : off < n := by omega
    have hrest : off + 1 + xs.length ≤ n := by omega
    have hnext : off + 1 = off + [x].length := rfl
    rw [writeBlock, writeAt_eq hin, ok_bind, writeBlock_eq hrest, store_store hnext,
      List.singleton_append]

/-- Writes a field of `k` bytes: the loop `a[off + i] = v >> 8 * i` for `i < k`. -/
def writeLE (k : ℕ) (a : List.Vector UInt8 n) (off v : ℕ) : Access (List.Vector UInt8 n) :=
  writeBlock a off (leBytes k v)

theorem writeLE_eq {a : List.Vector UInt8 n} (h : off + k ≤ n) (v : ℕ) :
    writeLE k a off v = .ok (store a off (leBytes k v)) :=
  writeBlock_eq (by rwa [length_leBytes])

/-- Fills an array: the loop `a[i] = f(i)` for `i < n`. -/
def fill (a : List.Vector α n) (f : ℕ → Access α) : Access (List.Vector α n) :=
  (List.range n).foldlM (fun a i => do writeAt a i (← f i)) a

theorem foldl_store (a : List.Vector α n) (g : ℕ → α) (k : ℕ) :
    (List.range k).foldl (fun a i => store a i [g i]) a = store a 0 ((List.range k).map g) := by
  induction k with
  | zero => simp
  | succ k ih =>
    rw [List.range_succ, List.foldl_append, ih, List.foldl_cons, List.foldl_nil, List.map_append]
    exact store_store (by simp)

theorem fill_eq {a : List.Vector α n} {f : ℕ → Access α} {g : ℕ → α}
    (h : ∀ i < n, f i = .ok (g i)) : fill a f = .ok ⟨(List.range n).map g, by simp⟩ := by
  have hbody : ∀ i ∈ List.range n, ∀ a : List.Vector α n,
      (do writeAt a i (← f i)) = .ok (store a i [g i]) := by
    intro i hi a
    have hin := List.mem_range.mp hi
    rw [h i hin, ok_bind, writeAt_eq hin]
  have hlen : ((List.range n).map g).length = n := by simp
  have hdrop : a.toList.drop ((List.range n).map g).length = [] :=
    List.drop_of_length_le (by rw [hlen, List.Vector.toList_length])
  rw [fill, foldlM_eq_ok hbody, foldl_store]
  refine congrArg Except.ok (List.Vector.eq _ _ ?_)
  rw [toList_store_zero hlen.le, hdrop]
  exact List.append_nil _

/-! ### How much is written -/

/-- `b` is `a` with elements written before position `k` only. -/
def WritesBelow (k : ℕ) (a b : List.Vector α n) : Prop := b.toList.drop k = a.toList.drop k

namespace WritesBelow

variable {a b c : List.Vector α n} {m : ℕ}

theorem refl (k : ℕ) (a : List.Vector α n) : WritesBelow k a a := rfl

theorem trans (h : WritesBelow k a b) (h' : WritesBelow k b c) : WritesBelow k a c :=
  Eq.trans h' h

theorem mono (h : WritesBelow k a b) (hkm : k ≤ m) : WritesBelow m a b := by
  have hdrop := congrArg (List.drop (m - k)) h
  rwa [List.drop_drop, List.drop_drop, Nat.add_sub_cancel' hkm] at hdrop

theorem store {src : List α} (h : off + src.length ≤ k) :
    WritesBelow k a (Indexing.store a off src) := by
  rw [WritesBelow, toList_store, drop_blit h]

end WritesBelow

end NewMavlink.Lib.Indexing
