import AvilaNode.TableRows
import AvilaNode.UtxoSet

/-! The clean cache through every run: what it counts, and that it can give up all that it holds. -/

namespace AvilaNode.CleanCoinCache

open Layers

/-- What `attach_backend` and `attach_shared` do to the cache: the bytes stay. -/
def clear (cache : CleanCoinCache) : CleanCoinCache := { cache with coins := ∅, order := [] }

inductive Op where
  | insert (outpoint : OutPoint) (coin : Coin)
  | take (outpoint : OutPoint)
  | invalidate (outpoint : OutPoint)
  | attach
  | renew

def apply (cache : CleanCoinCache) : Op → CleanCoinCache
  | .insert outpoint coin => cache.insert outpoint coin
  | .take outpoint => (cache.take outpoint).2
  | .invalidate outpoint => cache.invalidate outpoint
  | .attach => cache.clear
  | .renew => default

def live_bytes (coins : Table OutPoint CleanCoinEntry) : ℕ := total CleanCoinEntry.bytes coins

/-- What the eviction loop can count on: every entry is queued under its generation, and has its size. -/
structure Evictable (coins : Table OutPoint CleanCoinEntry) (order : List (OutPoint × ℕ)) : Prop where
  queued : ∀ op entry, coins.lookup op = some entry → (op, entry.generation) ∈ order
  sized : ∀ op entry, coins.lookup op = some entry → entry.bytes = entry_bytes (some entry.coin)

structure Kept (cache : CleanCoinCache) : Prop extends Evictable cache.coins cache.order where
  fits : over_budget cache.coins cache.order cache.bytes = false
  held : live_bytes cache.coins ≤ cache.bytes

variable {cache : CleanCoinCache} {coins : Table OutPoint CleanCoinEntry} {order : List (OutPoint × ℕ)}
  {bytes next_generation : ℕ} {op : OutPoint} {entry : CleanCoinEntry}

theorem over_budget_eq_false : over_budget coins order bytes = false ↔
    bytes ≤ BYTE_BUDGET ∧ coins.keys.length ≤ ENTRY_BUDGET ∧ order.length ≤ QUEUE_BUDGET := by
  have hkeys : coins.keys.length = coins.entries.length := List.length_map _
  simp [over_budget, hkeys, and_assoc]

theorem take_snd (cache : CleanCoinCache) (op : OutPoint) : (cache.take op).2 = cache.invalidate op := by
  unfold take invalidate
  cases cache.coins.lookup op <;> rfl

theorem live_bytes_erase (h : coins.lookup op = some entry) :
    live_bytes coins = entry.bytes + live_bytes (coins.erase op) := total_erase h

theorem Evictable.erase (h : Evictable coins order) (op : OutPoint) : Evictable (coins.erase op) order := by
  constructor <;> intro k e hk <;> rw [lookup_erase_eq] at hk <;> split at hk
  · cases hk
  · exact h.queued k e hk
  · cases hk
  · exact h.sized k e hk

theorem Evictable.tail {generation : ℕ} (h : Evictable coins ((op, generation) :: order))
    (hstale : ∀ entry, coins.lookup op = some entry → entry.generation ≠ generation) : Evictable coins order where
  sized := h.sized
  queued k e hk := by
    cases h.queued k e hk with
    | head => exact absurd rfl (hstale e hk)
    | tail _ hmem => exact hmem

theorem Evictable.nil (h : Evictable coins []) : coins.keys = [] := by
  refine List.eq_nil_iff_forall_not_mem.mpr fun k hk => ?_
  obtain ⟨e, he⟩ := Option.isSome_iff_exists.mp (mem_keys_iff.mp hk)
  cases h.queued k e he

/-- The loop ends within the budgets: an empty queue leaves no entry, and so no bytes but those it began with. -/
theorem evict_kept (next_generation : ℕ) (h : Evictable coins order) (hheld : live_bytes coins ≤ bytes)
    (hroom : bytes ≤ BYTE_BUDGET + live_bytes coins) :
    (evict next_generation coins bytes order).Kept ∧
      (evict next_generation coins bytes order).bytes + live_bytes coins =
        bytes + live_bytes (evict next_generation coins bytes order).coins := by
  induction order generalizing coins bytes with
  | nil =>
    have hnone : live_bytes coins = 0 := by rw [live_bytes, total_eq_picked, h.nil]; rfl
    rw [hnone] at hroom
    have hkeys : coins.keys.length ≤ ENTRY_BUDGET := by rw [h.nil]; exact Nat.zero_le _
    exact ⟨⟨h, over_budget_eq_false.mpr ⟨hroom, hkeys, Nat.zero_le _⟩, hheld⟩, rfl⟩
  | cons record order ih =>
    obtain ⟨oldest, generation⟩ := record
    rw [evict]
    split
    · cases hold : coins.lookup oldest with
      | none => exact ih (h.tail fun e he => by rw [hold] at he; cases he) hheld hroom
      | some entry =>
        dsimp only
        split
        · have herase := live_bytes_erase hold
          have hlater : Evictable (coins.erase oldest) order := by
            refine (h.erase oldest).tail fun e he => ?_
            rw [lookup_erase_eq, if_pos rfl] at he
            cases he
          have hfewer : live_bytes (coins.erase oldest) ≤ bytes - entry.bytes := by omega
          obtain ⟨hkept, hslack⟩ := ih hlater hfewer (by omega)
          exact ⟨hkept, by omega⟩
        · next hne =>
          refine ih (h.tail fun e he => ?_) hheld hroom
          cases hold.symm.trans he
          exact hne
    · next hfits => exact ⟨⟨h, Bool.not_eq_true _ ▸ hfits, hheld⟩, rfl⟩

theorem Kept.invalidate (h : cache.Kept) (op : OutPoint) : (cache.invalidate op).Kept ∧
    (cache.invalidate op).bytes + live_bytes cache.coins = cache.bytes + live_bytes (cache.invalidate op).coins := by
  unfold CleanCoinCache.invalidate
  cases hold : cache.coins.lookup op with
  | none => exact ⟨h, rfl⟩
  | some entry =>
    have herase := live_bytes_erase hold
    have hheld := h.held
    have hkeys := length_keys_erase (Option.isSome_of_eq_some hold)
    obtain ⟨hbytes, hentries, hqueue⟩ := over_budget_eq_false.mp h.fits
    refine ⟨⟨h.erase op, over_budget_eq_false.mpr ⟨?_, ?_, hqueue⟩, ?_⟩, ?_⟩ <;> dsimp only <;> omega

theorem Kept.insert (h : cache.Kept) (op : OutPoint) (coin : Coin) : (cache.insert op coin).Kept ∧
    (cache.insert op coin).bytes + live_bytes cache.coins = cache.bytes + live_bytes (cache.insert op coin).coins := by
  obtain ⟨hkept, hslack⟩ := h.invalidate op
  have hfresh : (cache.invalidate op).coins.lookup op = none := by
    have hnone : (cache.invalidate op).get op = none := by rw [get_invalidate, if_pos rfl]
    simpa [get] using hnone
  unfold CleanCoinCache.insert
  dsimp only
  split
  · exact ⟨hkept, hslack⟩
  generalize max 1 _ = generation
  have htotal : live_bytes ((cache.invalidate op).coins.insert op ⟨coin, generation, entry_bytes (some coin)⟩) =
    entry_bytes (some coin) + live_bytes (cache.invalidate op).coins := total_insert_fresh hfresh _
  have hheld := hkept.held
  have hbytes := (over_budget_eq_false.mp hkept.fits).1
  have hevictable : Evictable
      ((cache.invalidate op).coins.insert op ⟨coin, generation, entry_bytes (some coin)⟩)
      ((cache.invalidate op).order ++ [(op, generation)]) := by
    constructor <;> intro k e hk <;> rw [lookup_insert_eq] at hk <;> split at hk
    · next heq =>
      cases hk
      rw [heq]
      exact List.mem_append_right _ List.mem_cons_self
    · exact List.mem_append_left _ (hkept.queued k e hk)
    · cases hk
      rfl
    · exact hkept.sized k e hk
  have hmost : live_bytes ((cache.invalidate op).coins.insert op ⟨coin, generation, entry_bytes (some coin)⟩) ≤
    (cache.invalidate op).bytes + entry_bytes (some coin) := by omega
  obtain ⟨hevicted, hmore⟩ := evict_kept generation hevictable hmost (by omega)
  exact ⟨hevicted, by omega⟩

theorem Kept.empty (h : bytes ≤ BYTE_BUDGET) : Kept ⟨∅, [], bytes, next_generation⟩ where
  queued k e hk := by simp at hk
  sized k e hk := by simp at hk
  fits := over_budget_eq_false.mpr ⟨h, Nat.zero_le _, Nat.zero_le _⟩
  held := Nat.zero_le _

theorem Kept.apply (h : cache.Kept) (op : Op) : (cache.apply op).Kept := by
  cases op with
  | insert outpoint coin => exact (h.insert outpoint coin).1
  | take outpoint =>
    rw [CleanCoinCache.apply, take_snd]
    exact (h.invalidate outpoint).1
  | invalidate outpoint => exact (h.invalidate outpoint).1
  | attach => exact .empty (over_budget_eq_false.mp h.fits).1
  | renew => exact .empty (Nat.zero_le _)

theorem Kept.live_bytes_eq_zero (h : cache.Kept) : live_bytes cache.coins = 0 ↔ ∀ k, cache.get k = none := by
  constructor
  · intro hzero k
    cases hk : cache.coins.lookup k with
    | none => rw [get, hk]; rfl
    | some entry =>
      have hsize := h.sized k entry hk
      have hpart := live_bytes_erase hk
      unfold entry_bytes at hsize
      omega
  · intro hnone
    have hkeys : cache.coins.keys = [] := by
      refine List.eq_nil_iff_forall_not_mem.mpr fun k hk => ?_
      have hsome := mem_keys_iff.mp hk
      have hno : cache.coins.lookup k = none := by simpa [get] using hnone k
      rw [hno] at hsome
      cases hsome
    rw [live_bytes, total_eq_picked, hkeys]
    rfl

theorem Kept.exact_apply (h : cache.Kept) (hexact : cache.bytes = live_bytes cache.coins) (op : Op) :
    (cache.apply op).bytes = live_bytes (cache.apply op).coins ↔ (op = .attach → ∀ k, cache.get k = none) := by
  cases op with
  | insert outpoint coin =>
    have hslack := (h.insert outpoint coin).2
    exact iff_of_true (by dsimp only [CleanCoinCache.apply]; omega) (by rintro ⟨⟩)
  | take outpoint =>
    have hslack := (h.invalidate outpoint).2
    rw [CleanCoinCache.apply, take_snd]
    exact iff_of_true (by omega) (by rintro ⟨⟩)
  | invalidate outpoint =>
    have hslack := (h.invalidate outpoint).2
    exact iff_of_true (by dsimp only [CleanCoinCache.apply]; omega) (by rintro ⟨⟩)
  | attach =>
    rw [← h.live_bytes_eq_zero, ← hexact]
    exact ⟨fun hz _ => hz, fun hz => hz rfl⟩
  | renew => exact iff_of_true rfl (by rintro ⟨⟩)

def run (ops : List Op) : CleanCoinCache := ops.foldl apply default

theorem run_kept (ops : List Op) : (run ops).Kept := by
  induction ops using List.reverseRecOn with
  | nil => exact .empty (Nat.zero_le _)
  | append_singleton ops op ih =>
    rw [run, List.foldl_append]
    exact ih.apply op

/-- In every run the budgets hold and what is held can be evicted; the bytes are those of the entries, all the way,
exactly if no backend is attached over an entry. -/
theorem clean_cache_exact_iff (ops : List Op) : (run ops).Kept ∧
    ((∀ front, front <+: ops → (run front).bytes = live_bytes (run front).coins) ↔
      ∀ front, front ++ [.attach] <+: ops → ∀ k, (run front).get k = none) := by
  have hstep (front : List Op) (op : Op) : run (front ++ [op]) = (run front).apply op := by
    rw [run, List.foldl_append]
    rfl
  refine ⟨run_kept ops, fun hexact front hfront => ?_, fun hempty front => ?_⟩
  · have hlast := hexact _ hfront
    rw [hstep] at hlast
    exact ((run_kept front).exact_apply (hexact _ ((List.prefix_append _ _).trans hfront)) _).mp hlast rfl
  · induction front using List.reverseRecOn with
    | nil => exact fun _ => rfl
    | append_singleton front op ih =>
      intro hfront
      rw [hstep]
      refine ((run_kept front).exact_apply (ih ((List.prefix_append _ _).trans hfront)) op).mpr ?_
      rintro rfl
      exact hempty front hfront

theorem attach_keeps_bytes : (run [.insert sample_outpoint sample_coin, .attach]).bytes ≠
    live_bytes (run [.insert sample_outpoint sample_coin, .attach]).coins := by
  decide

end AvilaNode.CleanCoinCache
