import Stylesheet.Proofs.Lowering

namespace Stylesheet.Text

/-- None of the runs takes a code that lies whole steps from `low` and not past `high`. A run that such codes reach
counts every second code and none of these. -/
def leavesOut (low high step : Nat) : List CaseRun → Bool
  | [] => true
  | s :: runs =>
    Nat.blt high s.first ||
      ((Nat.blt s.last low || (s.step == 2 && (low + s.first) % 2 == 1 && (step == 2 || low == high))) &&
        leavesOut low high step runs)

theorem lowerCode_of_leavesOut {low high step n : Nat} {runs : List CaseRun} (h : leavesOut low high step runs = true)
    (below : low ≤ n) (above : n ≤ high) (whole : (n - low) % step = 0) : lowerCode runs n = n := by
  induction runs with
  | nil => rfl
  | cons s runs ih =>
    simp only [leavesOut, Bool.or_eq_true, Bool.and_eq_true, Nat.blt_eq, beq_iff_eq] at h
    unfold lowerCode
    split
    · rfl
    · next first =>
      obtain before | ⟨apart, more⟩ := h
      · omega
      · split
        · next last =>
          obtain behind | ⟨⟨two, odd⟩, even⟩ := apart
          · omega
          · have off : (n - s.first) % s.step ≠ 0 := by
              rw [two]
              obtain even | one := even
              · rw [even] at whole
                omega
              · omega
            rw [if_neg off]
        · exact ih more

theorem images_leaveOut : (lowerRuns.all fun r =>
    leavesOut r.image (r.image + (r.last - r.first)) r.step lowerRuns) = true := by decide +kernel

/-- The one letter whose lower case is two characters, as a run of its own. -/
def dottedRun : CaseRun := ⟨0x130, 0x130, 2, 0x69⟩

theorem images_leaveOut_dotted : (lowerRuns.all fun r =>
    leavesOut r.image (r.image + (r.last - r.first)) r.step [dottedRun]) = true := by decide +kernel

theorem lowerCode_of_image {runs : List CaseRun} (h : (lowerRuns.all fun r =>
    leavesOut r.image (r.image + (r.last - r.first)) r.step runs) = true) {n : Nat}
    (moved : lowerCode lowerRuns n ≠ n) : lowerCode runs (lowerCode lowerRuns n) = lowerCode lowerRuns n := by
  rcases lowerCode_cases lowerRuns n with same | ⟨r, hr, first, last, step, image⟩
  · exact absurd same moved
  · rw [image]
    have out := List.all_eq_true.mp h r hr
    exact lowerCode_of_leavesOut out (by omega) (by omega) (by rwa [Nat.add_sub_cancel_left])

/-- An image is no capital. -/
theorem lowerCode_lowerCode (n : Nat) : lowerCode lowerRuns (lowerCode lowerRuns n) = lowerCode lowerRuns n := by
  by_cases same : lowerCode lowerRuns n = n
  · rw [same, same]
  · exact lowerCode_of_image images_leaveOut same

theorem lowerCode_ne_dotted {n : Nat} (h : n ≠ 0x130) : lowerCode lowerRuns n ≠ 0x130 := by
  intro dotted
  by_cases same : lowerCode lowerRuns n = n
  · omega
  · have kept := lowerCode_of_image images_leaveOut_dotted same
    rw [dotted] at kept
    exact absurd kept (by decide)

/-- No image is a surrogate or past the last code. -/
theorem images_valid : (lowerRuns.all fun r =>
    Nat.blt (r.image + (r.last - r.first)) 0xD800 ||
      (Nat.blt 0xDFFF r.image && Nat.blt (r.image + (r.last - r.first)) 0x110000)) = true := by decide +kernel

theorem toNat_lowerCode (c : Char) :
    (Char.ofNat (lowerCode lowerRuns c.toNat)).toNat = lowerCode lowerRuns c.toNat := by
  apply toNat_ofNat
  rcases lowerCode_cases lowerRuns c.toNat with same | ⟨r, hr, first, last, -, image⟩
  · rw [same]
    exact c.valid
  · rw [image]
    have valid := List.all_eq_true.mp images_valid r hr
    simp only [Bool.or_eq_true, Bool.and_eq_true, Nat.blt_eq] at valid
    unfold Nat.isValidChar
    omega

/-- The lower case of a character is in lower case. -/
theorem lowerChar_of_mem {c d : Char} (h : d ∈ lowerChar c) : lowerChar d = [d] := by
  unfold lowerChar at h
  split at h
  · simp only [List.mem_cons, List.not_mem_nil, or_false] at h
    rcases h with rfl | rfl
    · decide +kernel
    · decide +kernel
  · next plain =>
    rw [List.mem_singleton] at h
    have code : d.toNat = lowerCode lowerRuns c.toNat := by rw [h, toNat_lowerCode]
    have other : c.toNat ≠ 0x130 := fun hc => plain (Char.toNat_inj.mp hc)
    have undotted : d ≠ '\u0130' := by
      intro hd
      rw [hd] at code
      exact lowerCode_ne_dotted other code.symm
    rw [lowerChar, if_neg undotted, code, lowerCode_lowerCode, h]

/-- Every character of a text in lower case is its own lower case. -/
theorem lowerChar_of_mem_lowerFrom {before rest : List Char} {d : Char} (h : d ∈ lowerFrom before rest) :
    lowerChar d = [d] := by
  induction rest generalizing before with
  | nil => cases h
  | cons c rest ih =>
    rw [lowerFrom, List.mem_append] at h
    rcases h with h | h
    · split at h
      · split at h
        · rw [List.mem_singleton.mp h]
          decide +kernel
        · rw [List.mem_singleton.mp h]
          decide +kernel
      · exact lowerChar_of_mem h
    · exact ih h

theorem lowerFrom_of_lowered {before rest : List Char} (h : ∀ c ∈ rest, lowerChar c = [c]) :
    lowerFrom before rest = rest := by
  induction rest generalizing before with
  | nil => rfl
  | cons c rest ih =>
    have own : lowerChar c = [c] := h c List.mem_cons_self
    have sigma : c ≠ '\u03A3' := by
      intro hc
      rw [hc] at own
      exact absurd own (by decide +kernel)
    rw [lowerFrom, if_neg sigma, own, ih fun d hd => h d (List.mem_cons_of_mem c hd)]
    rfl

/-- Lower case of lower case changes nothing. -/
theorem lower_lower (s : String) : lower (lower s) = lower s := by
  rw [lower, lower, String.toList_ofList, lowerFrom_of_lowered fun d hd => lowerChar_of_mem_lowerFrom hd]

/-- The runs up to U+00A1 are the capital letters, and so are those with images there, but for the Kelvin sign. -/
theorem runs_of_letters : ∀ r ∈ lowerRuns, (r.first = 0x41 ∧ r.last = 0x5A ∧ r.image = 0x61) ∨
    (0xA1 < r.first ∧ (0xA1 < r.image ∨ (r.first = r.last ∧ r.image = 0x6B))) := by
  decide +kernel

/-- A character in the lower case of another one is that one, a small letter, or above U+00A1. -/
theorem toNat_of_mem_lowerChar {c d : Char} (h : d ∈ lowerChar c) :
    d = c ∨ (0x61 ≤ d.toNat ∧ d.toNat ≤ 0x7A) ∨ 0xA1 < d.toNat := by
  unfold lowerChar at h
  split at h
  · simp only [List.mem_cons, List.not_mem_nil, or_false] at h
    rcases h with rfl | rfl
    · exact .inr (.inl (by decide))
    · exact .inr (.inr (by decide))
  · rw [List.mem_singleton] at h
    have code : d.toNat = lowerCode lowerRuns c.toNat := by rw [h, toNat_lowerCode]
    rcases lowerCode_cases lowerRuns c.toNat with same | ⟨r, hr, first, last, -, image⟩
    · exact .inl (Char.toNat_inj.mp (code.trans same))
    · have letters := runs_of_letters r hr
      omega

theorem lowerChar_eq_self {c : Char} (low : c.toNat ≤ 0xA1) (h : ¬ (0x41 ≤ c.toNat ∧ c.toNat ≤ 0x5A)) :
    lowerChar c = [c] := by
  have undotted : c ≠ '\u0130' := by
    intro hc
    rw [hc] at low
    exact absurd low (by decide)
  rw [lowerChar, if_neg undotted, List.singleton_inj]
  apply Char.toNat_inj.mp
  rw [toNat_lowerCode]
  rcases lowerCode_cases lowerRuns c.toNat with same | ⟨r, hr, first, last, -, image⟩
  · exact same
  · have letters := runs_of_letters r hr
    omega

end Stylesheet.Text
