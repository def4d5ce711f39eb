import Stylesheet.Source.Place

namespace Stylesheet.Text

/-- A code in a run keeps its distance to the start of the run; any other code stays. -/
theorem lowerCode_cases (runs : List CaseRun) (n : Nat) :
    lowerCode runs n = n ∨ ∃ r ∈ runs, r.first ≤ n ∧ n ≤ r.last ∧ (n - r.first) % r.step = 0 ∧
      lowerCode runs n = r.image + (n - r.first) := by
  induction runs with
  | nil => exact .inl rfl
  | cons r runs ih =>
    unfold lowerCode
    split
    · exact .inl rfl
    · next hfirst =>
      split
      · next hlast =>
        split
        · next hstep => exact .inr ⟨r, List.mem_cons_self, Nat.le_of_not_lt hfirst, hlast, hstep, rfl⟩
        · exact .inl rfl
      · rcases ih with h | ⟨s, hs, hr⟩
        · exact .inl h
        · exact .inr ⟨s, List.mem_cons_of_mem r hs, hr⟩

/-- The runs whose images lie below U+0080: the capital letters and the Kelvin sign. -/
theorem low_images : ∀ r ∈ lowerRuns, r.image < 0x80 →
    (r.first = 0x41 ∧ r.last = 0x5A ∧ r.image = 0x61) ∨ (r.first = r.last ∧ r.image = 0x6B) := by
  decide +kernel

theorem lowerCode_capital {n : Nat} (h : 0x41 ≤ n ∧ n ≤ 0x5A) :
    lowerCode lowerRuns n = if 0x41 ≤ n ∧ n ≤ 0x5A then n + 32 else n := by
  have first : ¬ n < 0x41 := by omega
  have capitals : lowerRuns = ⟨0x41, 0x5A, 1, 0x61⟩ :: lowerRuns.tail := rfl
  rw [capitals, lowerCode, if_pos h]
  simp only [if_neg first, if_pos h.2, Nat.mod_one, if_true]
  omega

theorem lowerCode_low {n : Nat} (h : lowerCode lowerRuns n < 0x80) (hk : lowerCode lowerRuns n ≠ 0x6B) :
    lowerCode lowerRuns n = if 0x41 ≤ n ∧ n ≤ 0x5A then n + 32 else n := by
  by_cases hn : 0x41 ≤ n ∧ n ≤ 0x5A
  · exact lowerCode_capital hn
  · rw [if_neg hn]
    rcases lowerCode_cases lowerRuns n with heq | ⟨r, hr, hfirst, hlast, -, heq⟩
    · exact heq
    · rcases low_images r hr (by omega) with ⟨ha, hz, -⟩ | ⟨hone, hi⟩
      · omega
      · omega

theorem toNat_toLower (c : Char) :
    c.toLower.toNat = if 0x41 ≤ c.toNat ∧ c.toNat ≤ 0x5A then c.toNat + 32 else c.toNat := by
  have key : (c.val ≥ 'A'.val ∧ c.val ≤ 'Z'.val) ↔ (0x41 ≤ c.toNat ∧ c.toNat ≤ 0x5A) := Iff.rfl
  unfold Char.toLower
  split
  · next h =>
    have hn := key.mp h
    rw [if_pos hn]
    change (c.val + ('a'.val - 'A'.val)).toNat = _
    rw [UInt32.toNat_add]
    have low : ('a'.val - 'A'.val).toNat = 32 := by decide
    have val : c.val.toNat = c.toNat := rfl
    omega
  · next h => rw [if_neg fun hn => h (key.mpr hn)]

theorem toNat_ofNat {n : Nat} (h : n.isValidChar) : (Char.ofNat n).toNat = n := by
  rw [Char.ofNat, dif_pos h]
  rfl

theorem ofNat_invalid {n : Nat} (h : ¬ n.isValidChar) : Char.ofNat n = '\x00' := by
  rw [Char.ofNat, dif_neg h]
  rfl

theorem toLower_of_lowerChar {c a : Char} (ha : a.toNat < 0x80) (h0 : a.toNat ≠ 0) (hk : a ≠ 'k')
    (h : lowerChar c = [a]) : c.toLower = a := by
  unfold lowerChar at h
  split at h
  · cases h
  · have hc : Char.ofNat (lowerCode lowerRuns c.toNat) = a := List.singleton_inj.mp h
    have code : lowerCode lowerRuns c.toNat = a.toNat := by
      by_cases valid : (lowerCode lowerRuns c.toNat).isValidChar
      · rw [← hc, toNat_ofNat valid]
      · rw [ofNat_invalid valid] at hc
        exact absurd (hc ▸ rfl) h0
    have kelvin : a.toNat ≠ 0x6B := fun h => hk (Char.toNat_inj.mp h)
    have low := lowerCode_low (n := c.toNat) (by omega) (by omega)
    apply Char.toNat_inj.mp
    rw [toNat_toLower, ← low, code]

/-- A character below U+0080 has its lower case there. -/
theorem lowerChar_low {c : Char} (h : c.toNat < 0x80) : lowerChar c = [c.toLower] := by
  have dotted : c ≠ '\u0130' := fun hc => by
    rw [hc] at h
    exact absurd h (by decide)
  unfold lowerChar
  rw [if_neg dotted, List.singleton_inj]
  apply Char.toNat_inj.mp
  have low : lowerCode lowerRuns c.toNat = if 0x41 ≤ c.toNat ∧ c.toNat ≤ 0x5A then c.toNat + 32 else c.toNat := by
    by_cases hn : 0x41 ≤ c.toNat ∧ c.toNat ≤ 0x5A
    · exact lowerCode_capital hn
    · rw [if_neg hn]
      have capitals : lowerRuns = ⟨0x41, 0x5A, 1, 0x61⟩ :: ⟨0xC0, 0xD6, 1, 0xE0⟩ :: lowerRuns.tail.tail := rfl
      rw [capitals, lowerCode, lowerCode]
      dsimp only
      split
      · rfl
      · rw [if_neg (by omega), if_pos (by omega)]
  rw [low, toNat_toLower]
  refine toNat_ofNat (.inl ?_)
  split <;> omega

theorem lowerFrom_append_low {w : List Char} (h : ∀ c ∈ w, c.toNat < 0x80) (before rest : List Char) :
    lowerFrom before (w ++ rest) = w.map Char.toLower ++ lowerFrom (w.reverse ++ before) rest := by
  induction w generalizing before with
  | nil => rfl
  | cons c w ih =>
    have hc : c.toNat < 0x80 := h c List.mem_cons_self
    have sigma : c ≠ '\u03A3' := fun hs => by
      rw [hs] at hc
      exact absurd hc (by decide)
    rw [List.cons_append, lowerFrom, if_neg sigma, lowerChar_low hc, ih fun d hd => h d (List.mem_cons_of_mem c hd),
      List.reverse_cons, List.append_assoc]
    rfl

theorem lowerFrom_low {before rest : List Char} (h : ∀ c ∈ rest, c.toNat < 0x80) :
    lowerFrom before rest = rest.map Char.toLower := by
  have whole := lowerFrom_append_low h before []
  rwa [List.append_nil, lowerFrom, List.append_nil] at whole

/-- Words in small letters below U+0080, of which the letter `k` is not one. -/
def isPlainWord (word : List Char) : Bool :=
  word.all fun a => a.toNat < 0x80 && a.toNat ≠ 0 && a ≠ 'k' && a.toLower = a

end Stylesheet.Text

namespace Stylesheet.Place

open Text

theorem take_toLower_of_startsWith {word rest : List Char} (hw : isPlainWord word = true)
    (h : startsWith word rest = true) : (rest.take word.length).map Char.toLower = word := by
  induction word generalizing rest with
  | nil => rfl
  | cons a word ih =>
    cases rest with
    | nil => cases h
    | cons c rest =>
      simp only [isPlainWord, List.all_cons, Bool.and_eq_true, decide_eq_true_eq, ne_eq] at hw
      obtain ⟨⟨⟨⟨ha, h0⟩, hk⟩, hl⟩, hw⟩ := hw
      simp only [startsWith, Bool.and_eq_true, sameLetter, beq_iff_eq] at h
      have hc : c.toLower = a := toLower_of_lowerChar ha h0 hk (by rw [h.1, lowerChar_low ha, hl])
      rw [List.length_cons, List.take_succ_cons, List.map_cons, hc, ih hw h.2]

/-- A word in small letters is found where its letters stand in any case, if they lie below U+0080. -/
theorem startsWith_of_take_toLower {word rest : List Char} (low : ∀ c ∈ rest.take word.length, c.toNat < 0x80)
    (h : (rest.take word.length).map Char.toLower = word) (small : word.map Char.toLower = word) :
    startsWith word rest = true := by
  induction word generalizing rest with
  | nil => rfl
  | cons a word ih =>
    cases rest with
    | nil => cases h
    | cons c rest =>
      rw [List.length_cons, List.take_succ_cons] at low h
      rw [List.map_cons, List.cons.injEq] at h small
      have here : c.toNat < 0x80 := low c List.mem_cons_self
      have there : a.toNat < 0x80 := by
        rw [← h.1, toNat_toLower]
        split
        · omega
        · exact here
      have same : sameLetter c a = true := by
        rw [sameLetter, lowerChar_low here, lowerChar_low there, h.1, small.1, beq_self_eq_true]
      rw [startsWith, same, ih (fun d hd => low d (List.mem_cons_of_mem c hd)) h.2 small.2]
      rfl

/-- A word is found in any case only where its letters stand, capital or small. -/
theorem take_toLower_of_comesAnyCase {word : String} {p : Place} (hw : isPlainWord word.toList = true)
    (h : p.comesAnyCase word = true) : (p.rest.take word.toList.length).map Char.toLower = word.toList := by
  unfold comesAnyCase at h
  rw [Bool.and_eq_true] at h
  exact take_toLower_of_startsWith hw h.2

end Stylesheet.Place
