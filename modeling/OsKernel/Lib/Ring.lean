/-
A queue in a ring buffer.

The buffer has N cells and two counters, r for what has been taken out and w for what has been put in; item number i lies in
cell `i % N`. `window` is the queue they describe. Putting in is appending and taking out is removing the head, as long as
there are at most N items.
-/
import Mathlib.Tactic

namespace OsKernel.Ring

variable {α : Type} {N r w : ℕ} {data : ℕ → α}

/-- the items from number r up to number w -/
def window (N : ℕ) (data : ℕ → α) (r w : ℕ) : List α := (List.range' r (w - r)).map fun i => data (i % N)

@[simp] theorem window_self (N : ℕ) (data : ℕ → α) (r : ℕ) : window N data r r = [] := by simp [window]

@[simp] theorem window_length (N : ℕ) (data : ℕ → α) (r w : ℕ) : (window N data r w).length = w - r := by simp [window]

/-- numbers less than N apart have different cells -/
theorem mod_ne {i j : ℕ} (hij : i < j) (hN : j < i + N) : i % N ≠ j % N := by
  intro h
  have hdvd : N ∣ j - i := (Nat.modEq_iff_dvd' hij.le).1 h
  exact absurd (Nat.le_of_dvd (by omega) hdvd) (by omega)

/-- a cell that holds no item of the queue may be written -/
theorem window_update {k : ℕ} (x : α) (hk : ∀ i, r ≤ i → i < w → i % N ≠ k % N) :
    window N (Function.update data (k % N) x) r w = window N data r w := by
  unfold window
  apply List.map_congr_left
  intro i hi
  obtain ⟨h1, h2⟩ := List.mem_range'_1.1 hi
  exact Function.update_of_ne (hk i h1 (by omega)) _ _

theorem window_succ (hrw : r ≤ w) : window N data r (w + 1) = window N data r w ++ [data (w % N)] := by
  have hsucc : w + 1 - r = (w - r) + 1 := by omega
  have hlast : r + (w - r) = w := by omega
  simp only [window, hsucc, List.range'_1_concat, List.map_append, List.map_cons, List.map_nil, hlast]

theorem window_append {m : ℕ} (hrm : r ≤ m) (hmw : m ≤ w) : window N data r m ++ window N data m w = window N data r w := by
  induction w, hmw using Nat.le_induction with
  | base => simp
  | succ w hmw ih => rw [window_succ hmw, window_succ (hrm.trans hmw), ← List.append_assoc, ih]

/-- **Putting in.** -/
theorem window_push (x : α) (hrw : r ≤ w) (hfull : w < r + N) :
    window N (Function.update data (w % N) x) r (w + 1) = window N data r w ++ [x] := by
  rw [window_succ hrw, Function.update_self, window_update x fun i _ hi => mod_ne hi (by omega)]

/-- **Taking out.** -/
theorem window_pop (h : r < w) : window N data r w = data (r % N) :: window N data (r + 1) w := by
  obtain ⟨n, hn⟩ : ∃ n, w - r = n + 1 := ⟨w - r - 1, by omega⟩
  have hn' : w - (r + 1) = n := by omega
  simp only [window, hn, hn', List.range'_succ, List.map_cons]

/-! ## Counters of 16 bits -/

/-- the ring holds the queue l between the counters r and w, which have wrapped any number of times -/
def Queue (N : ℕ) (data : ℕ → α) (r w : UInt16) (l : List α) : Prop :=
  ∃ i j, i ≤ j ∧ r = .ofNat i ∧ w = .ofNat j ∧ window N data i j = l

section Queue

variable {rd wr : UInt16} {l : List α}

theorem queue_nil (N : ℕ) (data : ℕ → α) : Queue N data 0 0 [] := ⟨0, 0, le_rfl, rfl, rfl, window_self N data 0⟩

/-- the cell of item number i -/
theorem ofNat_mod (hN : N ∣ 2 ^ 16) (i : ℕ) : (UInt16.ofNat i).toNat % N = i % N := by
  rw [UInt16.toNat_ofNat']
  exact Nat.mod_mod_of_dvd i hN

theorem ofNat_succ (i : ℕ) : UInt16.ofNat i + 1 = UInt16.ofNat (i + 1) := by
  rw [UInt16.ofNat_add]
  rfl

theorem Queue.push (h : Queue N data rd wr l) (hN : N ∣ 2 ^ 16) (hfull : l.length < N) (x : α) :
    Queue N (Function.update data (wr.toNat % N) x) rd (wr + 1) (l ++ [x]) := by
  obtain ⟨i, j, hij, rfl, rfl, rfl⟩ := h
  rw [window_length] at hfull
  refine ⟨i, j + 1, by omega, rfl, ofNat_succ j, ?_⟩
  rw [ofNat_mod hN, window_push x hij (by omega)]

theorem Queue.pop (h : Queue N data rd wr l) (hN : N ∣ 2 ^ 16) (hne : rd ≠ wr) :
    ∃ l', l = data (rd.toNat % N) :: l' ∧ Queue N data (rd + 1) wr l' := by
  obtain ⟨i, j, hij, rfl, rfl, rfl⟩ := h
  have hlt : i < j := lt_of_le_of_ne hij fun heq => hne (by rw [heq])
  refine ⟨window N data (i + 1) j, ?_, i + 1, j, hlt, ofNat_succ i, rfl, rfl⟩
  rw [ofNat_mod hN, window_pop hlt]

/-- equal indices mean an empty queue, also after they have wrapped -/
theorem Queue.eq_nil (h : Queue N data rd wr l) (heq : rd = wr) (hlt : l.length < 2 ^ 16) : l = [] := by
  obtain ⟨i, j, hij, rfl, rfl, rfl⟩ := h
  have hmod := congrArg UInt16.toNat heq
  rw [UInt16.toNat_ofNat', UInt16.toNat_ofNat'] at hmod
  rw [window_length] at hlt
  obtain rfl : i = j := by omega
  exact window_self N data i

end Queue

end OsKernel.Ring
