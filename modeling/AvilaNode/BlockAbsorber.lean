import Mathlib.Data.List.Basic
import Mathlib.Tactic.Ring

/-! A fold over blocks of one size, of data that comes in pieces. -/

namespace AvilaNode

variable {α β : Type} (step : α → List β → α) (size : ℕ)

def absorb_blocks : ℕ → α → List β → α × List β
  | 0, a, data => (a, data)
  | count + 1, a, data => absorb_blocks count (step a (data.take size)) (data.drop size)

def absorb_all (a : α) (data : List β) : α × List β := absorb_blocks step size (data.length / size) a data

variable {step size}

theorem absorb_blocks_add (m n : ℕ) (a : α) (data : List β) : absorb_blocks step size (m + n) a data =
    absorb_blocks step size n (absorb_blocks step size m a data).1 (absorb_blocks step size m a data).2 := by
  induction m generalizing a data with
  | zero => rw [Nat.zero_add, absorb_blocks]
  | succ m ih => rw [Nat.succ_add, absorb_blocks, ih, absorb_blocks]

theorem absorb_blocks_snd (count : ℕ) (a : α) (data : List β) :
    (absorb_blocks step size count a data).2 = data.drop (count * size) := by
  induction count generalizing a data with
  | zero => rw [absorb_blocks, Nat.zero_mul, List.drop_zero]
  | succ count ih =>
    rw [absorb_blocks, ih, List.drop_drop]
    congr 1
    ring

theorem absorb_blocks_append {count : ℕ} {data : List β} (h : count * size ≤ data.length) (a : α) (more : List β) :
    absorb_blocks step size count a (data ++ more) =
      ((absorb_blocks step size count a data).1, (absorb_blocks step size count a data).2 ++ more) := by
  induction count generalizing a data with
  | zero => rfl
  | succ count ih =>
    rw [Nat.succ_mul] at h
    rw [absorb_blocks, absorb_blocks, List.take_append_of_le_length (by omega),
      List.drop_append_of_le_length (by omega)]
    exact ih (by rw [List.length_drop]; omega) _

theorem absorb_all_short {data : List β} (h : data.length < size) (a : α) : absorb_all step size a data =
    (a, data) := by
  rw [absorb_all, Nat.div_eq_of_lt h, absorb_blocks]

theorem absorb_all_block {block data : List β} (hsize : 0 < size) (h : block.length = size) (a : α) :
    absorb_all step size a (block ++ data) = absorb_all step size (step a block) data := by
  rw [absorb_all, absorb_all, List.length_append, h, Nat.add_div_left _ hsize, absorb_blocks, List.take_left' h,
    List.drop_left' h]

theorem length_absorb_all (hsize : 0 < size) (a : α) (data : List β) : (absorb_all step size a data).2.length <
    size := by
  rw [absorb_all, absorb_blocks_snd, List.length_drop, Nat.mul_comm, ← Nat.mod_eq_sub_mul_div]
  exact Nat.mod_lt _ hsize

theorem absorb_all_append (hsize : 0 < size) (a : α) (data more : List β) :
    absorb_all step size a (data ++ more) =
      absorb_all step size (absorb_all step size a data).1 ((absorb_all step size a data).2 ++ more) := by
  have hfits : data.length / size * size ≤ data.length := Nat.div_mul_le_self _ _
  have hcount : (data ++ more).length / size =
      data.length / size + ((absorb_all step size a data).2 ++ more).length / size := by
    rw [absorb_all, absorb_blocks_snd, List.length_append, List.length_append, List.length_drop,
      show data.length + more.length =
        (data.length - data.length / size * size + more.length) + size * (data.length / size) by
        rw [Nat.mul_comm size]
        omega, Nat.add_mul_div_left _ _ hsize, Nat.add_comm]
  rw [absorb_all, hcount, absorb_blocks_add, absorb_blocks_append hfits]
  rfl

end AvilaNode
