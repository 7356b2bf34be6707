import AvilaNode.Layers
import AvilaNode.Primitives

/-! The bounded read cache of coins the backend has already answered. -/

namespace AvilaNode

open Layers

def entry_bytes (coin : Option Coin) : ℕ :=
  36 + 8 + (match coin with
    | some c => c.out.script_pubkey.length
    | none => 32) + 64

structure CleanCoinEntry where
  coin : Coin
  generation : ℕ
  bytes : ℕ
deriving DecidableEq, Repr

structure CleanCoinCache where
  coins : Table OutPoint CleanCoinEntry
  order : List (OutPoint × ℕ)
  bytes : ℕ
  next_generation : ℕ

namespace CleanCoinCache

def default : CleanCoinCache := ⟨∅, [], 0, 0⟩

def BYTE_BUDGET : ℕ := 16 * 1024 * 1024

def ENTRY_BUDGET : ℕ := 4096

def QUEUE_BUDGET : ℕ := ENTRY_BUDGET * 2

def get (cache : CleanCoinCache) (outpoint : OutPoint) : Option Coin :=
  (cache.coins.lookup outpoint).map CleanCoinEntry.coin

def invalidate (cache : CleanCoinCache) (outpoint : OutPoint) : CleanCoinCache :=
  match cache.coins.lookup outpoint with
  | some old => { cache with coins := cache.coins.erase outpoint, bytes := cache.bytes - old.bytes }
  | none => cache

def take (cache : CleanCoinCache) (outpoint : OutPoint) : Option Coin × CleanCoinCache :=
  match cache.coins.lookup outpoint with
  | some entry => (some entry.coin, cache.invalidate outpoint)
  | none => (none, cache)

def over_budget (coins : Table OutPoint CleanCoinEntry) (order : List (OutPoint × ℕ)) (bytes : ℕ) : Bool :=
  decide (BYTE_BUDGET < bytes) || decide (ENTRY_BUDGET < coins.entries.length)
    || decide (QUEUE_BUDGET < order.length)

def evict (next_generation : ℕ) (coins : Table OutPoint CleanCoinEntry) (bytes : ℕ) :
    List (OutPoint × ℕ) → CleanCoinCache
  | [] => ⟨coins, [], bytes, next_generation⟩
  | (oldest, generation) :: order =>
    if over_budget coins ((oldest, generation) :: order) bytes then
      match coins.lookup oldest with
      | some entry =>
        if entry.generation = generation then
          evict next_generation (coins.erase oldest) (bytes - entry.bytes) order
        else evict next_generation coins bytes order
      | none => evict next_generation coins bytes order
    else ⟨coins, (oldest, generation) :: order, bytes, next_generation⟩

def insert (cache : CleanCoinCache) (outpoint : OutPoint) (coin : Coin) : CleanCoinCache :=
  let cache := cache.invalidate outpoint
  let bytes := entry_bytes (some coin)
  if BYTE_BUDGET < bytes then cache
  else
    -- `wrapping_add(1).max(1)` on a u64
    let generation := max 1 ((cache.next_generation + 1) % 2 ^ 64)
    evict generation (cache.coins.insert outpoint ⟨coin, generation, bytes⟩) (cache.bytes + bytes)
      (cache.order ++ [(outpoint, generation)])

@[simp] theorem get_default (op : OutPoint) : default.get op = none := by
  simp [default, get]

theorem get_invalidate (cache : CleanCoinCache) (op k : OutPoint) :
    (cache.invalidate op).get k = if k = op then none else cache.get k := by
  unfold invalidate get
  cases h : cache.coins.lookup op with
  | none =>
    by_cases hk : k = op
    · subst hk; simp [h]
    · simp [hk]
  | some old => by_cases hk : k = op <;> simp [hk, lookup_erase_eq]

variable {cache : CleanCoinCache} {op k : OutPoint}

theorem get_of_invalidate {c : Coin} (h : (cache.invalidate op).get k = some c) : k ≠ op ∧ cache.get k = some c := by
  rw [get_invalidate] at h
  split at h
  · cases h
  · exact ⟨‹_›, h⟩

theorem take_fst (cache : CleanCoinCache) (op : OutPoint) : (cache.take op).1 = cache.get op := by
  unfold take get
  cases h : cache.coins.lookup op <;> simp

theorem evict_get {next_generation : ℕ} {coins : Table OutPoint CleanCoinEntry} {bytes : ℕ}
    {order : List (OutPoint × ℕ)} {coin : Coin} (h : (evict next_generation coins bytes order).get k = some coin) :
    (coins.lookup k).map CleanCoinEntry.coin = some coin := by
  induction order generalizing coins bytes with
  | nil => exact h
  | cons e order ih =>
    obtain ⟨oldest, generation⟩ := e
    rw [evict] at h
    split at h
    · split at h
      · split at h
        · have hk := ih h
          rw [lookup_erase_eq] at hk
          split at hk
          · cases hk
          · exact hk
        · exact ih h
      · exact ih h
    · exact h

theorem get_insert {coin c : Coin} (h : (cache.insert op coin).get k = some c) :
    (k = op ∧ c = coin) ∨ (k ≠ op ∧ cache.get k = some c) := by
  unfold insert at h
  dsimp only at h
  split at h
  · exact Or.inr (get_of_invalidate h)
  have hk := evict_get h
  rw [lookup_insert_eq] at hk
  split at hk
  · left
    exact ⟨‹_›, by simpa using hk.symm⟩
  · exact Or.inr (get_of_invalidate hk)

end CleanCoinCache

end AvilaNode
