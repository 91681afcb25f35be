import Mathlib

/-!
# Ring buffers

`contents pool size out n` is the queue that a ring of `size` cells holds in the `n`
cells from offset `out` on. A value is stored at offset `(out + n) % size`, and the
front is read at `out`. `copy` and `slice` are block copies into a buffer and out of one; a
ring that wraps needs two of them.
-/

namespace RtThread.Lib.Ring

variable {V : Type*}

def contents (pool : ℕ → V) (size out : ℕ) : ℕ → List V
  | 0 => []
  | n + 1 => contents pool size out n ++ [pool ((out + n) % size)]

/-- The offset after `x`, as a C program computes it. -/
def next (size x : ℕ) : ℕ := if size ≤ x + 1 then 0 else x + 1

theorem next_eq_mod {size x : ℕ} (h : x < size) : next size x = (x + 1) % size := by
  unfold next
  split
  · rw [show x + 1 = size by omega, Nat.mod_self]
  · rw [Nat.mod_eq_of_lt (by omega)]

theorem next_lt {size x : ℕ} (h : x < size) : next size x < size := by
  unfold next
  split <;> omega

theorem next_add {size out n : ℕ} (h : 0 < size) :
    next size ((out + n) % size) = (out + (n + 1)) % size := by
  rw [next_eq_mod (Nat.mod_lt _ h), Nat.mod_add_mod, Nat.add_assoc]

theorem contents_cons (pool : ℕ → V) {size out : ℕ} (h : out < size) (n : ℕ) :
    contents pool size out (n + 1) = pool out :: contents pool size (next size out) n := by
  induction n with
  | zero => simp [contents, Nat.mod_eq_of_lt h]
  | succ n ih =>
    have hidx : (out + (n + 1)) % size = (next size out + n) % size := by
      rw [next_eq_mod h, Nat.mod_add_mod, Nat.add_assoc, Nat.add_comm 1 n]
    rw [contents, ih, contents, List.cons_append, hidx]

theorem mod_ne_of_lt {size out i n : ℕ} (hi : i < n) (hn : n < size) :
    (out + i) % size ≠ (out + n) % size := by
  intro heq
  have hmod : i % size = n % size := Nat.ModEq.add_left_cancel' out heq
  rw [Nat.mod_eq_of_lt (by omega), Nat.mod_eq_of_lt hn] at hmod
  omega

theorem contents_update (pool : ℕ → V) {size out n : ℕ} (hn : n < size) (v : V) {k : ℕ} (hk : k ≤ n) :
    contents (Function.update pool ((out + n) % size) v) size out k = contents pool size out k := by
  induction k with
  | zero => rfl
  | succ k ih =>
    rw [contents, contents, ih (by omega), Function.update_of_ne (mod_ne_of_lt (by omega) hn)]

theorem contents_push (pool : ℕ → V) {size out n : ℕ} (hn : n < size) (v : V) :
    contents (Function.update pool ((out + n) % size) v) size out (n + 1) =
      contents pool size out n ++ [v] := by
  rw [contents, contents_update pool hn v le_rfl, Function.update_self]

theorem contents_add (pool : ℕ → V) {size : ℕ} (out m n : ℕ) :
    contents pool size out (m + n) = contents pool size out m ++ contents pool size ((out + m) % size) n := by
  induction n with
  | zero => simp [contents]
  | succ n ih => rw [← Nat.add_assoc, contents, ih, contents, List.append_assoc, Nat.mod_add_mod, Nat.add_assoc]

@[simp] theorem length_contents (pool : ℕ → V) (size out n : ℕ) : (contents pool size out n).length = n := by
  induction n with
  | zero => rfl
  | succ n ih => rw [contents, List.length_append, ih, List.length_singleton]

/-! ### Block copies -/

/-- `memcpy(&pool[a], data, ...)`. -/
def copy (pool : ℕ → V) : ℕ → List V → ℕ → V
  | _, [] => pool
  | a, v :: data => copy (Function.update pool a v) (a + 1) data

/-- The `n` cells from offset `a` on. -/
def slice (pool : ℕ → V) (a n : ℕ) : List V := (List.range' a n).map pool

@[simp] theorem length_slice (pool : ℕ → V) (a n : ℕ) : (slice pool a n).length = n := by
  rw [slice, List.length_map, List.length_range']

theorem take_slice (pool : ℕ → V) (a : ℕ) {m n : ℕ} (h : m ≤ n) : (slice pool a n).take m = slice pool a m := by
  rw [slice, slice, ← List.map_take, List.take_range'_of_length_ge h]

theorem drop_slice (pool : ℕ → V) (a m n : ℕ) : (slice pool a n).drop m = slice pool (a + m) (n - m) := by
  rw [slice, slice, ← List.map_drop, List.drop_range', Nat.mul_one]

theorem slice_update (pool : ℕ → V) (n : ℕ) (v : V) :
    slice (Function.update pool n v) 0 (n + 1) = slice pool 0 n ++ [v] := by
  rw [slice, slice, List.range'_1_concat, List.map_append, List.map_singleton, Nat.zero_add, Function.update_self]
  congr 1
  refine List.map_congr_left fun i hi => Function.update_of_ne ?_ _ _
  rw [List.mem_range'_1] at hi
  omega

theorem slice_copy (pool : ℕ → V) (a : ℕ) (data : List V) :
    slice (copy pool a data) 0 (a + data.length) = slice pool 0 a ++ data := by
  induction data generalizing pool a with
  | nil => rw [copy, List.length_nil, Nat.add_zero, List.append_nil]
  | cons v data ih =>
    rw [copy, List.length_cons, ← Nat.add_assoc, Nat.add_right_comm, ih, slice_update, List.append_assoc,
      List.singleton_append]

theorem copy_of_notMem (pool : ℕ → V) {a x : ℕ} {data : List V} (h : x < a ∨ a + data.length ≤ x) :
    copy pool a data x = pool x := by
  induction data generalizing pool a with
  | nil => rfl
  | cons v data ih =>
    rw [List.length_cons] at h
    rw [copy, ih _ (by omega), Function.update_of_ne (by omega)]

theorem slice_congr {pool pool' : ℕ → V} {a b n : ℕ} (h : ∀ i < n, pool' (b + i) = pool (a + i)) :
    slice pool' b n = slice pool a n := by
  refine List.ext_getElem (by simp) fun i hi hi' => ?_
  rw [length_slice] at hi'
  simp only [slice, List.getElem_map, List.getElem_range', Nat.one_mul]
  exact h i hi'

theorem slice_add (pool : ℕ → V) (a m n : ℕ) : slice pool a (m + n) = slice pool a m ++ slice pool (a + m) n := by
  rw [slice, slice, slice, ← List.map_append, List.range'_append_1]

theorem slice_of_copy (pool : ℕ → V) (a : ℕ) (data : List V) : slice (copy pool a data) a data.length = data := by
  induction data generalizing pool a with
  | nil => rfl
  | cons v data ih =>
    have hfirst : copy (Function.update pool a v) (a + 1) data a = v := by
      rw [copy_of_notMem _ (Or.inl (Nat.lt_succ_self a)), Function.update_self]
    have hsplit : (v :: data).length = 1 + data.length := by rw [List.length_cons, Nat.add_comm]
    rw [copy, hsplit, slice_add, ih]
    simp [slice, hfirst]

/-- The list with `ys` over its values from `pos` on. -/
def splice (xs : List V) (pos : ℕ) (ys : List V) : List V := xs.take pos ++ ys ++ xs.drop (pos + ys.length)

theorem length_splice {xs : List V} {pos : ℕ} (h : pos ≤ xs.length) (ys : List V) :
    (splice xs pos ys).length = max xs.length (pos + ys.length) := by
  rw [splice, List.length_append, List.length_append, List.length_take, List.length_drop]
  omega

/-- A copy over the values from `pos` on, and behind them if it is longer. -/
theorem slice_splice (pool : ℕ → V) (a : ℕ) {n pos : ℕ} (h : pos ≤ n) (ys : List V) :
    slice (copy pool (a + pos) ys) a (max n (pos + ys.length)) = splice (slice pool a n) pos ys := by
  have hsplit : max n (pos + ys.length) = pos + (ys.length + (n - (pos + ys.length))) := by omega
  have hfront : slice (copy pool (a + pos) ys) a pos = slice pool a pos :=
    slice_congr fun i hi => copy_of_notMem pool (Or.inl (by omega))
  have hback : slice (copy pool (a + pos) ys) (a + pos + ys.length) (n - (pos + ys.length)) =
      slice pool (a + (pos + ys.length)) (n - (pos + ys.length)) := by
    rw [Nat.add_assoc]
    exact slice_congr fun i hi => copy_of_notMem pool (Or.inr (by omega))
  rw [hsplit, slice_add, slice_add, hfront, slice_of_copy, hback, splice, take_slice pool a h, drop_slice,
    List.append_assoc]

/-- The values of `data` stored one by one. -/
def store (size : ℕ) (pool : ℕ → V) : ℕ → List V → ℕ → V
  | _, [] => pool
  | a, v :: data => store size (Function.update pool a v) (next size a) data

theorem store_eq_copy {size : ℕ} {data : List V} (hd : data.length ≤ size) {a : ℕ} (ha : a < size)
    (pool : ℕ → V) :
    store size pool a data = copy (copy pool a (data.take (size - a))) 0 (data.drop (size - a)) := by
  induction data generalizing pool a with
  | nil => simp [store, copy]
  | cons v data ih =>
    rw [List.length_cons] at hd
    rw [store]
    by_cases hwrap : size ≤ a + 1
    · rw [next, if_pos hwrap, show size - a = 1 by omega, ih (by omega) (show 0 < size by omega)]
      rw [Nat.sub_zero, List.take_of_length_le (by omega), List.drop_of_length_le (by omega)]
      rfl
    · rw [next, if_neg hwrap, ih (by omega) (by omega)]
      rw [show size - a = size - (a + 1) + 1 by omega, List.take_succ_cons, List.drop_succ_cons]
      rfl

theorem contents_store {size out : ℕ} {data : List V} {n : ℕ} (hn : n + data.length ≤ size) (pool : ℕ → V) :
    contents (store size pool ((out + n) % size) data) size out (n + data.length) =
      contents pool size out n ++ data := by
  induction data generalizing pool n with
  | nil => simp [store]
  | cons v data ih =>
    rw [List.length_cons] at hn ⊢
    rw [store, next_add (by omega), show n + (data.length + 1) = n + 1 + data.length by omega,
      ih (show n + 1 + data.length ≤ size by omega), contents_push pool (by omega), List.append_assoc,
      List.singleton_append]

theorem contents_eq_slice {size a n : ℕ} (pool : ℕ → V) (h : a + n ≤ size) :
    contents pool size a n = slice pool a n := by
  induction n with
  | zero => rfl
  | succ n ih =>
    rw [contents, ih (by omega), slice, slice, List.range'_1_concat, List.map_append, List.map_singleton,
      Nat.mod_eq_of_lt (by omega)]

theorem contents_eq_slices {size a n : ℕ} (pool : ℕ → V) (ha : a < size) (hn : n ≤ size) (h : size ≤ a + n) :
    contents pool size a n = slice pool a (size - a) ++ slice pool 0 (n - (size - a)) := by
  have hsplit : n = (size - a) + (n - (size - a)) := by omega
  have hwrap : (a + (size - a)) % size = 0 := by
    rw [Nat.add_sub_of_le ha.le, Nat.mod_self]
  rw [hsplit, contents_add, hwrap, contents_eq_slice pool (by omega), contents_eq_slice pool (by omega),
    Nat.add_sub_cancel_left]

end RtThread.Lib.Ring
