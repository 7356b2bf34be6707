import AvilaNode.V2Receive

/-! The garbage before the packets, and the receiver that looks for its end. -/

namespace AvilaNode.V2

open ByteStrings V2Channel

def Lies (term buf : List UInt8) (i : ℕ) : Prop :=
  i + GARBAGE_TERMINATOR_LEN ≤ buf.length ∧ (buf.drop i).take GARBAGE_TERMINATOR_LEN = term

instance (term buf : List UInt8) (i : ℕ) : Decidable (Lies term buf i) := inferInstanceAs (Decidable (_ ∧ _))

variable {term buf : List UInt8}

variable {i : ℕ} {ch' : V2Channel}

theorem scan_some {count j : ℕ} (h : scan term buf count i = some j) :
    i ≤ j ∧ Lies term buf j ∧ ∀ k, i ≤ k → k < j → ¬Lies term buf k := by
  induction count generalizing i with
  | zero => cases h
  | succ count ih =>
    rw [scan] at h
    split_ifs at h with hlies hlast
    · obtain rfl : i = j := Option.some.inj h
      exact ⟨le_refl i, hlies, fun k hk hlt => absurd hlt (Nat.not_lt.mpr hk)⟩
    obtain ⟨hle, hj, hfirst⟩ := ih h
    refine ⟨by omega, hj, ?_⟩
    intro k hk hlt
    rcases Nat.eq_or_lt_of_le hk with rfl | hk
    · exact hlies
    · exact hfirst k hk hlt

theorem scan_none {count : ℕ} (h : scan term buf count i = none) :
    ∀ k, i ≤ k → k < i + count → k ≤ MAX_GARBAGE_LEN → ¬Lies term buf k := by
  induction count generalizing i with
  | zero =>
    intro k hk hlt
    omega
  | succ count ih =>
    rw [scan] at h
    intro k hk hlt hmax
    split_ifs at h with hlies hlast
    · obtain rfl : k = i := by omega
      exact hlies
    · rcases Nat.eq_or_lt_of_le hk with rfl | hk
      · exact hlies
      · exact ih h k hk (by omega) hmax

theorem lies_append (h : Lies term buf i) (rest : List UInt8) : Lies term (buf ++ rest) i := by
  obtain ⟨hlen, htake⟩ := h
  refine ⟨by rw [List.length_append]; omega, ?_⟩
  rw [List.drop_append_of_le_length (by omega), List.take_append_of_le_length (by rw [List.length_drop]; omega),
    htake]

theorem lies_of_append {rest : List UInt8} (h : Lies term (buf ++ rest) i)
    (hlen : i + GARBAGE_TERMINATOR_LEN ≤ buf.length) : Lies term buf i := by
  refine ⟨hlen, ?_⟩
  rw [← h.2, List.drop_append_of_le_length (by omega),
    List.take_append_of_le_length (by rw [List.length_drop]; omega)]

theorem lies_drop {d : ℕ} : Lies term (buf.drop d) i ↔ Lies term buf (d + i) := by
  unfold Lies
  rw [List.length_drop, List.drop_drop, GARBAGE_TERMINATOR_LEN]
  constructor <;> rintro ⟨hlen, htake⟩ <;> exact ⟨by omega, htake⟩

variable {ch : V2Channel}

theorem skip_garbage_found (hsaw : ch.saw_terminator = false) {i : ℕ} (hmax : i ≤ MAX_GARBAGE_LEN)
    (h : Lies ch.cipher.recv_terminator.toList ch.recv_buf i)
    (hfirst : ∀ k < i, ¬Lies ch.cipher.recv_terminator.toList ch.recv_buf k) :
    ch.skip_garbage = .ok { ch with
      recv_aad := some (ch.recv_buf.take i), recv_buf := ch.recv_buf.drop (i + GARBAGE_TERMINATOR_LEN),
      saw_terminator := true } := by
  have hscan : scan ch.cipher.recv_terminator.toList ch.recv_buf
      (min ch.recv_buf.length (MAX_GARBAGE_LEN + GARBAGE_TERMINATOR_LEN)) 0 = some i := by
    cases hs : scan ch.cipher.recv_terminator.toList ch.recv_buf
      (min ch.recv_buf.length (MAX_GARBAGE_LEN + GARBAGE_TERMINATOR_LEN)) 0 with
    | none =>
      refine absurd h (scan_none hs i (Nat.zero_le i) ?_ hmax)
      have hlen := h.1
      rw [GARBAGE_TERMINATOR_LEN] at *
      omega
    | some j =>
      obtain ⟨-, hj, hfirst'⟩ := scan_some hs
      rcases Nat.lt_trichotomy i j with hlt | rfl | hlt
      · exact absurd h (hfirst' i (Nat.zero_le i) hlt)
      · rfl
      · exact absurd hj (hfirst j hlt)
  rw [skip_garbage, hsaw]
  simp only [Bool.false_eq_true, if_false, hscan]

theorem skip_garbage_none (hsaw : ch.saw_terminator = false)
    (h : ∀ i, ¬Lies ch.cipher.recv_terminator.toList ch.recv_buf i) :
    ch.skip_garbage =
      if MAX_GARBAGE_LEN + GARBAGE_TERMINATOR_LEN < ch.recv_buf.length then .error "peer garbage overrun"
      else if MAX_GARBAGE_LEN < ch.recv_buf.length then
        .ok { ch with recv_buf := ch.recv_buf.drop (ch.recv_buf.length - (GARBAGE_TERMINATOR_LEN - 1)) }
      else .ok ch := by
  have hscan : scan ch.cipher.recv_terminator.toList ch.recv_buf
      (min ch.recv_buf.length (MAX_GARBAGE_LEN + GARBAGE_TERMINATOR_LEN)) 0 = none := by
    cases hs : scan ch.cipher.recv_terminator.toList ch.recv_buf
      (min ch.recv_buf.length (MAX_GARBAGE_LEN + GARBAGE_TERMINATOR_LEN)) 0 with
    | none => rfl
    | some j => exact absurd (scan_some hs).2.1 (h j)
  rw [skip_garbage, hsaw]
  simp only [Bool.false_eq_true, if_false, hscan]

variable [Ciphers]

theorem feed_eq {bytes : List UInt8}
    (h : V2Channel.skip_garbage
    { ch with recv_buf := ch.recv_buf ++ bytes } = .ok ch') (hsaw : ch'.saw_terminator = true) :
    ch.feed bytes = drain ((ch.recv_buf ++ bytes).length + 1) ch' := by
  have hturn : V2Channel.turn { ch with recv_buf := ch.recv_buf ++ bytes } = ch'.turn := by
    rw [turn, h, turn_eq hsaw]
    change (if !ch'.saw_terminator then _ else _) = _
    rw [hsaw]
    rfl
  rw [feed]
  simp only [drain, hturn]

theorem feed_wait {bytes : List UInt8}
    (h : V2Channel.skip_garbage { ch with recv_buf :=
    ch.recv_buf ++ bytes } = .ok ch') (hsaw : ch'.saw_terminator = false) : ch.feed bytes = .ok ([], ch') := by
  have hturn : V2Channel.turn { ch with recv_buf := ch.recv_buf ++ bytes } = .ok (.wait ch') := by
    rw [turn, h]
    change (if !ch'.saw_terminator then _ else _) = _
    rw [hsaw]
    rfl
  rw [feed]
  simp only [drain, hturn]

theorem feed_error {bytes : List UInt8} {e : String}
    (h : V2Channel.skip_garbage { ch with recv_buf := ch.recv_buf ++ bytes } = .error e) : ch.feed bytes =
      .error e := by
  have hturn : V2Channel.turn { ch with recv_buf := ch.recv_buf ++ bytes } = .error e := by
    rw [turn, h]
    rfl
  rw [feed]
  simp only [drain, hturn]

variable {chunks : List (List UInt8)}

theorem feeds_error {bytes : List UInt8} {e : String} (h : ch.feed bytes = .error e) :
    ch.feeds (bytes :: chunks) = .error e := by
  rw [feeds, h]
  rfl

theorem feeds_ok {bytes : List UInt8} {outs : List Named} (h : ch.feed bytes = .ok (outs, ch')) :
    ch.feeds (bytes :: chunks) = (ch'.feeds chunks).map fun r => (outs ++ r.1, r.2) := by
  rw [feeds, h]
  change (ch'.feeds chunks >>= _) = _
  cases ch'.feeds chunks <;> rfl

structure Seeking (garbage term tail : List UInt8) (d : ℕ) (ch : V2Channel) (rest : List UInt8) : Prop where
  saw_terminator : ch.saw_terminator = false
  saw_version : ch.saw_version = false
  recv_len : ch.recv_len = none
  terminator : ch.cipher.recv_terminator.toList = term
  buf : ch.recv_buf ++ rest = (garbage ++ term ++ tail).drop d
  held : ch.recv_buf.length ≤ MAX_GARBAGE_LEN
  start : d ≤ garbage.length
  dropped : d = 0 ∨ MAX_GARBAGE_LEN + 1 ≤ d + (GARBAGE_TERMINATOR_LEN - 1)
  unfinished : d + ch.recv_buf.length < garbage.length + GARBAGE_TERMINATOR_LEN

structure Plain (garbage term : List UInt8) : Prop where
  short : garbage.length ≤ MAX_GARBAGE_LEN
  width : term.length = GARBAGE_TERMINATOR_LEN
  first : ∀ i < garbage.length, ¬Lies term (garbage ++ term) i

variable {garbage tail : List UInt8} {d : ℕ} {bytes rest : List UInt8}

theorem Seeking.feed_short (hp : Plain garbage term) (h : Seeking garbage term tail d ch (bytes ++ rest))
    (hshort : d + (ch.recv_buf.length + bytes.length) < garbage.length + GARBAGE_TERMINATOR_LEN) :
    ∃ ch' d', ch.feed bytes = .ok ([], ch') ∧ Seeking garbage term tail d' ch' rest ∧ ch'.cipher = ch.cipher ∧
      (ch.recv_buf.length + bytes.length ≤ MAX_GARBAGE_LEN ∧ d' = d ∧
        ch'.recv_buf.length = ch.recv_buf.length + bytes.length ∨
      d = 0 ∧ MAX_GARBAGE_LEN < ch.recv_buf.length + bytes.length ∧ 0 < d') := by
  set ch₁ : V2Channel := { ch with recv_buf := ch.recv_buf ++ bytes } with hch₁
  have hbuf : ch₁.recv_buf ++ rest = (garbage ++ term ++ tail).drop d := by
    rw [hch₁, ← h.buf, List.append_assoc]
  have hlen : ch₁.recv_buf.length = ch.recv_buf.length + bytes.length := List.length_append
  have hnone : ∀ i, ¬Lies ch₁.cipher.recv_terminator.toList ch₁.recv_buf i := by
    intro i hi
    rw [show ch₁.cipher = ch.cipher from rfl, h.terminator] at hi
    have hwhole := lies_append hi rest
    rw [hbuf, lies_drop] at hwhole
    have hend := hi.1
    rw [hlen] at hend
    refine hp.first (d + i) (by omega) (lies_of_append hwhole ?_)
    rw [List.length_append, hp.width]
    omega
  have hskip := @skip_garbage_none ch₁ h.saw_terminator hnone
  have hp' := hp.short
  simp only [hlen, GARBAGE_TERMINATOR_LEN, MAX_GARBAGE_LEN] at hskip hshort hp'
  rw [if_neg (by omega)] at hskip
  by_cases htrim : MAX_GARBAGE_LEN < ch.recv_buf.length + bytes.length
  · have hd := h.dropped
    rw [MAX_GARBAGE_LEN] at htrim
    simp only [MAX_GARBAGE_LEN, GARBAGE_TERMINATOR_LEN] at hd
    have hd0 : d = 0 := by omega
    subst hd0
    rw [if_pos htrim] at hskip
    set ch₂ : V2Channel :=
      { ch₁ with recv_buf := ch₁.recv_buf.drop (ch.recv_buf.length + bytes.length - 15) } with hch₂
    have hlen₂ : ch₂.recv_buf.length = 15 := by
      rw [hch₂, List.length_drop, hlen]
      omega
    refine ⟨ch₂, ch.recv_buf.length + bytes.length - 15, feed_wait hskip h.saw_terminator,
      ⟨h.saw_terminator, h.saw_version, h.recv_len, h.terminator, ?_, ?_, by omega, ?_, ?_⟩, rfl,
      .inr ⟨rfl, htrim, by omega⟩⟩
    · rw [List.drop_zero] at hbuf
      rw [← hbuf, List.drop_append_of_le_length (by omega)]
    · rw [hlen₂, MAX_GARBAGE_LEN]
      omega
    · rw [MAX_GARBAGE_LEN, GARBAGE_TERMINATOR_LEN]
      omega
    · rw [hlen₂, GARBAGE_TERMINATOR_LEN]
      omega
  · rw [if_neg (by rwa [MAX_GARBAGE_LEN] at htrim)] at hskip
    refine ⟨ch₁, d, feed_wait hskip h.saw_terminator,
      ⟨h.saw_terminator, h.saw_version, h.recv_len, h.terminator, hbuf, ?_,
      h.start, h.dropped, ?_⟩, rfl, .inl ⟨Nat.not_lt.mp htrim, rfl, hlen⟩⟩
    · rw [hlen]
      exact Nat.not_lt.mp htrim
    · rw [hlen, GARBAGE_TERMINATOR_LEN]
      omega

theorem Seeking.feed_found (hp : Plain garbage term) (h : Seeking garbage term tail d ch (bytes ++ rest))
    (hdone : garbage.length + GARBAGE_TERMINATOR_LEN ≤ d + (ch.recv_buf.length + bytes.length)) :
    ∃ ch' fuel, ch.feed bytes = drain fuel ch' ∧ ch'.recv_buf.length < fuel ∧ ch'.saw_terminator = true ∧
      ch'.saw_version = false ∧ ch'.recv_len = none ∧ ch'.cipher = ch.cipher ∧
      ch'.recv_aad = some (garbage.drop d) ∧ ch'.recv_buf ++ rest = tail := by
  set ch₁ : V2Channel := { ch with recv_buf := ch.recv_buf ++ bytes } with hch₁
  have hbuf : ch₁.recv_buf ++ rest = (garbage ++ term ++ tail).drop d := by
    rw [hch₁, ← h.buf, List.append_assoc]
  have hlen : ch₁.recv_buf.length = ch.recv_buf.length + bytes.length := List.length_append
  have hterm : ch₁.cipher.recv_terminator.toList = term := h.terminator
  have hd := h.start
  have hsplit : (garbage ++ term ++ tail).drop d = garbage.drop d ++ (term ++ tail) := by
    rw [List.append_assoc, List.drop_append_of_le_length hd]
  have hlies : Lies ch₁.cipher.recv_terminator.toList ch₁.recv_buf (garbage.length - d) := by
    rw [hterm]
    apply @lies_of_append _ _ _ rest
    · rw [hbuf, lies_drop, show d + (garbage.length - d) = garbage.length by omega, List.append_assoc]
      refine ⟨by simp [hp.width], ?_⟩
      rw [List.drop_left, ← hp.width, List.take_left]
    · omega
  have hfirst : ∀ k < garbage.length - d, ¬Lies ch₁.cipher.recv_terminator.toList ch₁.recv_buf k := by
    intro k hk hkl
    rw [hterm] at hkl
    have hwhole := lies_append hkl rest
    rw [hbuf, lies_drop] at hwhole
    refine hp.first (d + k) (by omega) (lies_of_append hwhole ?_)
    rw [List.length_append, hp.width]
    omega
  have hmax : garbage.length - d ≤ MAX_GARBAGE_LEN := (Nat.sub_le _ _).trans hp.short
  have hskip := @skip_garbage_found ch₁ h.saw_terminator _ hmax hlies hfirst
  have hgarbage : ch₁.recv_buf.take (garbage.length - d) = garbage.drop d := by
    have htake := take_of_append (hbuf.trans hsplit) (n := garbage.length - d) (by omega) (by simp)
    rw [htake, List.take_of_length_le (by simp)]
  have htail : ch₁.recv_buf.drop (garbage.length - d + GARBAGE_TERMINATOR_LEN) ++ rest = tail := by
    rw [hsplit, ← List.append_assoc] at hbuf
    have hdrop := drop_of_append hbuf (n := garbage.length - d + GARBAGE_TERMINATOR_LEN) (by omega)
      (by simp [hp.width])
    rw [hdrop, List.drop_eq_nil_of_le (by simp [hp.width]), List.nil_append]
  refine ⟨_, _, feed_eq hskip rfl, ?_, rfl, h.saw_version, h.recv_len, rfl, ?_, htail⟩
  · rw [List.length_drop]
    exact Nat.lt_succ_of_le (Nat.sub_le _ _)
  · rw [hgarbage]

end AvilaNode.V2
