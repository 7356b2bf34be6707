import AvilaNode.UndoFiled

/-! The coins set under every chain state: its layers are in order and every commit is accepted. -/

namespace AvilaNode

open Layers UtxoSet

namespace Chainstate

variable [Platform]

variable {s t : Chainstate}

section

variable (h : Sound s)
include h

theorem Sound.kept (hk : CoinsKept s.utxo t.utxo) (hrooted : t.chain ≠ []) (hfloor : t.undo_floor = s.undo_floor)
    (hle : ∀ f, s.undo_floor = some f → f.1 ≤ t.tip_height) : Sound t where
  coins := hk.ok
  rooted := hrooted
  floor be hbe := by
    rw [hfloor]
    exact h.floor be (hk.same.same.backend ▸ hbe)
  floor_le f hf := hle f (hfloor ▸ hf)
  landed job e hj := h.landed job e (hk.same.same.flush_join ▸ hj)
  flight_floor job f hj hf := h.flight_floor job f (hk.same.same.flush_join ▸ hj) (hfloor ▸ hf)

theorem Sound.still (hk : CoinsKept s.utxo t.utxo) (hchain : t.chain = s.chain) (hfloor : t.undo_floor = s.undo_floor) :
    Sound t := by
  refine h.kept hk (hchain ▸ h.rooted) hfloor fun f hf => ?_
  rw [tip_height, hchain]
  exact h.floor_le f hf

theorem Sound.join : ∃ t, s.join_coins_flush = (.ok (), t) ∧ Sound t ∧
    t.utxo.flush_join = none ∧ t.utxo.backend.isSome = s.utxo.backend.isSome ∧ t.chain = s.chain := by
  obtain ⟨utxo, hj, hjoined, hfloor⟩ := h.joined
  have hnone : ∀ job, utxo.flush_join ≠ some job := by simp [hjoined.idle]
  unfold join_coins_flush
  rw [hj]
  cases hi : s.inflight_flush with
  | none =>
    refine ⟨{ s with utxo }, by rw [hi], ?_, hjoined.idle, hjoined.backend, rfl⟩
    exact ⟨hjoined.ok, h.rooted, hfloor, h.floor_le, fun job _ hj => (hnone job hj).elim,
      fun job _ hj => (hnone job hj).elim⟩
  | some flight =>
    refine ⟨_, rfl, ?_, hjoined.idle, hjoined.backend, rfl⟩
    exact ⟨hjoined.ok, h.rooted, hfloor, h.floor_le, fun job _ hj => (hnone job hj).elim,
      fun job _ hj => (hnone job hj).elim⟩

theorem Sound.flush (extra : List UndoRow) : Sound (s.flush_coins_with extra s.tip_height).2 := by
  unfold flush_coins_with
  split
  · exact h
  rename_i hbe
  obtain ⟨t, hj, ht, hidle, hbacked, hchain⟩ := h.join
  have hsome : t.utxo.backend.isSome := by
    rw [hbacked]
    simpa [Option.isSome_iff_ne_none] using hbe
  obtain ⟨utxo, job, hf, hback, -, hjob, htip, hres⟩ :=
    flush_owned_idle hidle hsome (extra ++ t.tail_rows) s.tip_height
  have hone : ∀ j, utxo.flush_join = some j → j.tip = s.tip_height ∧ j.result = none := by
    intro j hj'
    obtain rfl := Option.some.inj (hjob.symm.trans hj')
    exact ⟨htip, hres⟩
  have htips : t.tip_height = s.tip_height := by rw [tip_height, hchain, tip_height]
  rw [hj]
  dsimp only
  rw [hf]
  refine ⟨(ht.coins.flush_to_backend_owned hf).1, ht.rooted, hback ▸ ht.floor, ht.floor_le, ?_, ?_⟩
  · intro j e hj'
    simp [(hone j hj').2]
  · intro j f hj' hfl
    rw [(hone j hj').1, ← htips]
    exact ht.floor_le f hfl

end

variable {r : Except ConnectError Unit}

theorem Sound.rewind_step (h : Sound s) (hfloor : ∀ f, s.undo_floor = some f → f.1 ≤ s.tip_height - 1)
    (ht : s.rewind_step = (r, t)) :
    Sound t ∧ (r = .ok () → t.tip_height = s.tip_height - 1 ∧ t.undo_floor = s.undo_floor) := by
  unfold Chainstate.rewind_step at ht
  split at ht
  · cases ht
    exact ⟨h, nofun⟩
  rename_i hash _
  split at ht
  · cases ht
    exact ⟨h, nofun⟩
  rename_i block _
  split at ht
  · cases ht
    exact ⟨h, nofun⟩
  rename_i undo hundo
  have hk := disconnect_kept block h.coins undo
  have hpos : s.tip_height ≠ 0 := by
    intro hz
    rw [hz] at hundo
    cases hundo
  have hlen : s.chain.dropLast.length = s.chain.length - 1 := List.length_dropLast
  split at ht
  · rename_i utxo hd
    rw [hd] at hk
    cases ht
    exact ⟨h.still hk rfl rfl, nofun⟩
  · rename_i utxo hd
    rw [hd] at hk
    cases ht
    have htip : (s.pop_tip hash utxo).tip_height = s.tip_height - 1 := by
      change s.chain.dropLast.length - 1 = s.chain.length - 1 - 1
      rw [hlen]
    refine ⟨h.kept hk ?_ rfl (fun f hf => htip ▸ hfloor f hf), fun _ => ⟨htip, rfl⟩⟩
    change s.chain.dropLast ≠ []
    unfold tip_height at hpos
    rw [← List.length_pos_iff, hlen]
    omega

theorem Sound.rewind_loop {steps : ℕ} (h : Sound s)
    (hfloor : ∀ f, s.undo_floor = some f → f.1 ≤ s.tip_height - steps) : Sound (rewind_loop steps s).2 := by
  induction steps generalizing s with
  | zero => exact h
  | succ steps ih =>
    rw [Chainstate.rewind_loop]
    split
    · rename_i e t ht
      exact (h.rewind_step (fun f hf => (hfloor f hf).trans (by omega)) ht).1
    rename_i t ht
    obtain ⟨hs, hok⟩ := h.rewind_step (fun f hf => (hfloor f hf).trans (by omega)) ht
    obtain ⟨htip, hfl⟩ := hok rfl
    apply ih hs
    intro f hf
    have := hfloor f (hfl ▸ hf)
    omega

theorem Sound.rewound {s u t : Chainstate} (h : Sound s) {target : ℕ}
    (floor : ¬ s.undo_floor.any fun f => target < f.1)
    (popped : Chainstate.rewind_loop (s.tip_height - target) u = (r, t)) (hutxo : u.utxo = s.utxo)
    (hchain : u.chain = s.chain) (hfloor : u.undo_floor = s.undo_floor) : Sound t := by
  have hk : CoinsKept s.utxo u.utxo := by
    rw [hutxo]
    exact .refl h.coins
  have hu : Sound u := h.still hk hchain hfloor
  have hs : Sound (Chainstate.rewind_loop (s.tip_height - target) u).2 := hu.rewind_loop (fun f hf => by
    rw [hfloor] at hf
    rw [tip_height, hchain, ← tip_height]
    have := h.floor_le f hf
    have : ¬ target < f.1 := by simpa [hf] using floor
    omega)
  rw [popped] at hs
  exact hs

theorem Sound.adopt (h : Sound s) {utxo : UtxoSet} (hk : CoinsKept s.utxo utxo) {fork_height : ℕ}
    (hfork : fork_height < s.chain.length) (hfloor : ∀ f, s.undo_floor = some f → f.1 ≤ fork_height)
    (hash : BlockHash) (branch_hashes : List BlockHash) (parts : List (BlockRecord × BlockReceipt))
    (tree : HeaderTree) :
    Sound (s.adopt_branch hash fork_height branch_hashes parts utxo tree).2 := by
  have hlen : (s.chain.take (fork_height + 1) ++ branch_hashes).length = fork_height + 1 + branch_hashes.length := by
    rw [List.length_append, List.length_take]
    omega
  have hswitch : ∀ receipts checked_feed, Sound { s.switch_branch fork_height branch_hashes parts utxo tree with
      receipts, checked_feed } := by
    intro receipts checked_feed
    refine h.kept hk ?_ rfl fun f hf => ?_
    · change s.chain.take (fork_height + 1) ++ branch_hashes ≠ []
      rw [← List.length_pos_iff, hlen]
      omega
    · have := hfloor f hf
      change f.1 ≤ (s.chain.take (fork_height + 1) ++ branch_hashes).length - 1
      omega
  obtain ⟨receipts, hr⟩ := note_receipts_eq (s.switch_branch fork_height branch_hashes parts utxo tree)
    (parts.map Prod.snd)
  obtain ⟨checked_feed, hfeed, -⟩ := push_all_checked_eq
    { s.switch_branch fork_height branch_hashes parts utxo tree with receipts } (fork_height + 1) branch_hashes
  unfold adopt_branch
  dsimp only
  rw [hr, hfeed]
  have hs := hswitch receipts checked_feed
  generalize min (undo_base _ - fork_height) _ = split
  by_cases hpos : 0 < split
  · rw [if_pos hpos]
    have hf := hs.flush (low_rows { s.switch_branch fork_height branch_hashes parts utxo tree with
      receipts, checked_feed } fork_height (parts.map fun p => p.1.undo))
    split
    · rename_i hm
      rw [hm] at hf
      exact hf
    · rename_i hm
      rw [hm] at hf
      exact hf.still (.refl hf.coins) rfl rfl
  · rw [if_neg hpos]
    exact hs.still (.refl hs.coins) rfl rfl

theorem Move.sound (h : Move s t) (hs : Sound s) : Sound t := by
  have hrefl : CoinsKept s.utxo s.utxo := .refl hs.coins
  cases h with
  | insert header now => exact hs.still hrefl rfl rfl
  | mark hash => exact hs.still hrefl rfl rfl
  | mark_subtree hash => exact hs.still hrefl rfl rfl
  | clear_subtree hash => exact hs.still hrefl rfl rfl
  | precious hash => exact hs.still hrefl rfl rfl
  | take_checked => exact hs.still hrefl rfl rfl
  | verify scripts_verified => exact hs.still hrefl rfl rfl
  | speculate => exact hs.still hrefl rfl rfl
  | retain_new added => exact hs.still hrefl rfl rfl
  | retain_known fresh => exact hs.still hrefl rfl rfl
  | settle front passed => exact hs.still hrefl rfl rfl
  | @connect_failed block ctx e utxo failed hash =>
    have hk := connect_full_kept block ctx hs.coins
    rw [failed] at hk
    exact hs.still hk rfl rfl
  | @connect block undo check receipt utxo node stored known extends_tip connects =>
    have hk := connect_full_kept block (s.context block.block_hash s.script_pool) hs.coins
    rw [connects] at hk
    have hpush : Sound (s.push_tip ⟨block.block_hash, undo,
        block_checks block s.utxo (s.context block.block_hash s.script_pool)⟩ utxo) := by
      refine hs.kept hk (by simp [push_tip]) rfl fun f hf => ?_
      have := hs.floor_le f hf
      change f.1 ≤ (s.chain ++ [block.block_hash]).length - 1
      unfold tip_height at this
      rw [List.length_append, List.length_singleton]
      omega
    cases check <;> exact hpush.still (.refl hk.ok) rfl rfl
  | rewound floor popped =>
    have ht := hs.rewound floor popped rfl rfl rfl
    exact ht.still (.refl ht.coins) rfl rfl
  | rewind_stuck floor popped =>
    have ht := hs.rewound floor popped rfl rfl rfl
    exact ht.still (.refl ht.coins) rfl rfl
  | condemned front preflight popped =>
    have ht := hs.rewound (preflight_floor preflight) popped rfl rfl rfl
    exact ht.still (.refl ht.coins) rfl rfl
  | condemned_stuck front preflight popped =>
    have ht := hs.rewound (preflight_floor preflight) popped rfl rfl rfl
    exact ht.still (.refl ht.coins) rfl rfl
  | join =>
    obtain ⟨t, hj, ht, -⟩ := hs.join
    rw [hj]
    exact ht
  | flush => exact hs.flush []
  | land => exact hs.land
  | @simulate_failed hash fork_height branch_hashes e sim tree elected simulated =>
    exact hs.still (simulated_kept hs.coins simulated false) rfl rfl
  | @adopt hash fork_height branch_hashes parts sim tree elected simulated =>
    obtain ⟨new_node, conn_node, whole, he⟩ := elected_of elected
    exact hs.adopt (simulated_kept hs.coins simulated true) (branch_walk_active he.walk) he.above_floor hash
      branch_hashes parts tree

end Chainstate

end AvilaNode
