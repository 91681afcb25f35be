import Mathlib

/-!
# Ranges of a memory whose addresses wrap

`overlay m dst n f` is the memory `m` with `f 0`, ..., `f (n - 1)` in the `n` places from `dst` on. What a loop
writes piece by piece is one overlay. `countdown` is a loop that takes `n` off a length as long as it can.
-/

namespace RtThread.Lib.Overlay

variable {w : ℕ} {α σ : Type*}

def overlay (m : BitVec w → α) (dst : BitVec w) (n : ℕ) (f : ℕ → α) : BitVec w → α :=
  fun a => if (a - dst).toNat < n then f (a - dst).toNat else m a

/-- `while (len >= n) { body; len -= n; }` -/
def countdown (n : BitVec w) (body : σ → σ) (s : σ) (len : BitVec w) : σ × BitVec w :=
  if 0 < n ∧ n ≤ len then countdown n body (body s) (len - n) else (s, len)
termination_by len.toNat
decreasing_by
  rename_i h
  obtain ⟨hn, hle⟩ := h
  rw [BitVec.toNat_sub_of_le hle]
  have hpos : 0 < n.toNat := (Nat.zero_le _).trans_lt hn
  exact Nat.sub_lt (hpos.trans_le hle) hpos

variable {m : BitVec w → α} {dst a : BitVec w} {n k : ℕ} {f g : ℕ → α}

theorem add_ofNat_sub (dst : BitVec w) {i : ℕ} (hi : i < 2 ^ w) : (dst + BitVec.ofNat w i - dst).toNat = i := by
  rw [BitVec.add_comm, BitVec.add_sub_cancel, BitVec.toNat_ofNat, Nat.mod_eq_of_lt hi]

theorem sub_add_ofNat (a dst : BitVec w) {n : ℕ} (hn : n ≤ 2 ^ w) :
    (a - (dst + BitVec.ofNat w n)).toNat =
      if n ≤ (a - dst).toNat then (a - dst).toNat - n else (a - dst).toNat + 2 ^ w - n := by
  have hlt := (a - dst).isLt
  rw [← BitVec.sub_sub, BitVec.toNat_sub, BitVec.toNat_ofNat]
  rcases Nat.lt_or_eq_of_le hn with hn | rfl
  · rw [Nat.mod_eq_of_lt hn]
    split
    · rw [Nat.add_comm, ← Nat.add_sub_assoc hn.le, Nat.sub_add_comm (by assumption), Nat.add_mod_right,
        Nat.mod_eq_of_lt (by omega)]
    · rw [Nat.mod_eq_of_lt (by omega)]
      omega
  · rw [Nat.mod_self, Nat.sub_zero, Nat.add_mod_left, Nat.mod_eq_of_lt hlt, if_neg (by omega), Nat.add_sub_cancel]

theorem eq_add_ofNat_iff {n : ℕ} (hn : n < 2 ^ w) : a = dst + BitVec.ofNat w n ↔ (a - dst).toNat = n := by
  constructor
  · rintro rfl
    exact add_ofNat_sub dst hn
  · intro h
    rw [← h, BitVec.ofNat_toNat, BitVec.setWidth_eq, BitVec.add_comm, BitVec.sub_add_cancel]

theorem overlay_zero : overlay m dst 0 f = m := by
  funext a
  rw [overlay, if_neg (Nat.not_lt_zero _)]

theorem overlay_congr (h : ∀ i < n, f i = g i) : overlay m dst n f = overlay m dst n g := by
  funext a
  rw [overlay, overlay]
  split
  · rename_i hlt
    exact h _ hlt
  · rfl

theorem overlay_apply_of_ne (h : ∀ i < n, dst + BitVec.ofNat w i ≠ a) : overlay m dst n f a = m a := by
  rw [overlay, if_neg]
  intro hlt
  apply h _ hlt
  rw [BitVec.ofNat_toNat, BitVec.setWidth_eq, BitVec.add_comm, BitVec.sub_add_cancel]

theorem overlay_apply_add {i : ℕ} (hi : i < n) (hn : n ≤ 2 ^ w) :
    overlay m dst n f (dst + BitVec.ofNat w i) = f i := by
  rw [overlay, add_ofNat_sub dst (hi.trans_le hn), if_pos hi]

theorem overlay_add (h : n + k ≤ 2 ^ w) :
    overlay (overlay m dst n f) (dst + BitVec.ofNat w n) k (fun i => f (n + i)) = overlay m dst (n + k) f := by
  funext a
  rw [overlay, overlay, overlay, sub_add_ofNat a dst (by omega)]
  by_cases hn : n ≤ (a - dst).toNat
  · rw [if_pos hn, if_neg (by omega : ¬(a - dst).toNat < n), Nat.add_sub_cancel' hn]
    exact if_congr (by omega) rfl rfl
  · rw [if_neg hn, if_neg (by omega), if_pos (by omega), if_pos (by omega)]

theorem overlay_succ (h : n < 2 ^ w) :
    Function.update (overlay m dst n f) (dst + BitVec.ofNat w n) (f n) = overlay m dst (n + 1) f := by
  funext a
  rw [Function.update_apply, overlay, overlay]
  by_cases ha : a = dst + BitVec.ofNat w n
  · rw [if_pos ha, (eq_add_ofNat_iff h).mp ha, if_pos n.lt_succ_self]
  · have hne := mt (eq_add_ofNat_iff h).mpr ha
    rw [if_neg ha]
    exact if_congr (by omega) rfl rfl

theorem overlay_cons (h : n < 2 ^ w) :
    Function.update (overlay m (dst + BitVec.ofNat w 1) n fun i => f (i + 1)) dst (f 0) = overlay m dst (n + 1) f := by
  funext a
  have hlt := (a - dst).isLt
  rw [Function.update_apply, overlay, overlay, sub_add_ofNat a dst (by omega)]
  by_cases ha : a = dst
  · rw [if_pos ha, ha, BitVec.sub_self, BitVec.toNat_zero, if_pos n.succ_pos]
  · have hpos : 1 ≤ (a - dst).toNat := by
      by_contra hzero
      apply ha
      rw [← BitVec.add_zero dst]
      exact (eq_add_ofNat_iff (Nat.two_pow_pos w)).mpr (by omega)
    rw [if_neg ha, if_pos hpos, Nat.sub_add_cancel hpos]
    exact if_congr (by omega) rfl rfl

theorem countdown_inv {P : ℕ → σ → Prop} {n : BitVec w} {body : σ → σ} (hn : 0 < n) {total : ℕ}
    (hstep : ∀ k s, k + n.toNat ≤ total → P k s → P (k + n.toNat) (body s)) {k : ℕ} {s : σ} {len : BitVec w}
    (hk : k + len.toNat = total) (hs : P k s) :
    ∃ k', k' + (countdown n body s len).2.toNat = total ∧ P k' (countdown n body s len).1 ∧
      (countdown n body s len).2 < n := by
  induction s, len using countdown.induct n body generalizing k with
  | case1 s len hle ih =>
    have hlen : n.toNat ≤ len.toNat := hle.2
    have hrest := BitVec.toNat_sub_of_le hle.2
    rw [countdown, if_pos hle]
    apply ih _ (hstep k s (by omega) hs)
    omega
  | case2 s len hle =>
    rw [countdown, if_neg hle]
    rw [not_and] at hle
    exact ⟨k, hk, hs, BitVec.not_le.mp (hle hn)⟩

end RtThread.Lib.Overlay
