import Stylesheet.Proofs.Motion

namespace Stylesheet

/-- Blanks and whole comments, with the texts of the comments. -/
inductive IsGap : List String → List Char → Prop
  | nil : IsGap [] []
  | blank {texts : List String} {c : Char} {rest : List Char} :
    Text.isBlank c = true → IsGap texts rest → IsGap texts (c :: rest)
  | comment {texts : List String} {body rest : List Char} :
    ¬ ['*', '/'] <:+: body → IsGap texts rest →
      IsGap (String.ofList body :: texts) ('/' :: '*' :: body ++ '*' :: '/' :: rest)

namespace IsGap

theorem append {ts us : List String} {g h : List Char} (hg : IsGap ts g) (hh : IsGap us h) :
    IsGap (ts ++ us) (g ++ h) := by
  induction hg with
  | nil => exact hh
  | blank hc _ ih => exact .blank hc ih
  | comment hb _ ih =>
    have whole := IsGap.comment hb ih
    simp only [List.cons_append, List.append_assoc] at whole ⊢
    exact whole

theorem ofBlanks {bs : List Char} (h : bs.all Text.isBlank = true) : IsGap [] bs := by
  induction bs with
  | nil => exact .nil
  | cons b bs ih =>
    rw [List.all_cons, Bool.and_eq_true] at h
    exact .blank h.1 (ih h.2)

/-- A gap ends with a blank or with the end of a comment. -/
theorem last {ts : List String} {g x : List Char} {c : Char} (h : IsGap ts g) (hx : g = x ++ [c]) :
    Text.isBlank c = true ∨ c = '/' ∧ ∃ y, x = y ++ ['*'] := by
  induction h generalizing x with
  | nil => simp at hx
  | @blank _ d rest hd _ ih =>
    rcases List.eq_nil_or_concat rest with rfl | ⟨y, e, hy⟩
    · have parts : [] ++ [d] = x ++ [c] := hx
      exact .inl (List.singleton_inj.mp (List.append_inj' parts rfl).2 ▸ hd)
    · rw [List.concat_eq_append] at hy
      subst hy
      have parts : (d :: y) ++ [e] = x ++ [c] := hx
      obtain ⟨rfl, he⟩ := List.append_inj' parts rfl
      rcases ih (x := y) (he ▸ rfl) with hb | ⟨hc, z, rfl⟩
      · exact .inl hb
      · exact .inr ⟨hc, d :: z, rfl⟩
  | @comment _ body rest _ _ ih =>
    rcases List.eq_nil_or_concat rest with rfl | ⟨y, e, hy⟩
    · have parts : ('/' :: '*' :: (body ++ ['*'])) ++ ['/'] = x ++ [c] := by rw [← hx]; simp
      obtain ⟨rfl, hc⟩ := List.append_inj' parts rfl
      exact .inr ⟨(List.singleton_inj.mp hc).symm, '/' :: '*' :: body, rfl⟩
    · rw [List.concat_eq_append] at hy
      subst hy
      have parts : ('/' :: '*' :: (body ++ '*' :: '/' :: y)) ++ [e] = x ++ [c] := by rw [← hx]; simp
      obtain ⟨rfl, he⟩ := List.append_inj' parts rfl
      rcases ih (x := y) (he ▸ rfl) with hb | ⟨hc, z, rfl⟩
      · exact .inl hb
      · exact .inr ⟨hc, '/' :: '*' :: (body ++ '*' :: '/' :: z), by simp⟩

end IsGap

namespace Place

theorem comes_iff {p : Place} {l : String} : p.comes l = true ↔ l.toList ≠ [] ∧ l.toList <+: p.rest := by
  simp only [comes, Bool.and_eq_true, Bool.not_eq_true', List.isEmpty_eq_false_iff, ne_eq,
    List.isPrefixOf_iff_prefix]

/-- Where a comment ends for the first time. -/
theorem commentBody?_eq_some {l body : List Char} (h : commentBody? l = some body) :
    (∃ rest, l = body ++ '*' :: '/' :: rest) ∧ ¬ ['*', '/'] <:+: body := by
  fun_induction commentBody? l generalizing body with
  | case1 => cases h
  | case2 rest =>
    cases h
    exact ⟨⟨rest, rfl⟩, by simp⟩
  | case3 c rest hc ih =>
    obtain ⟨more, hm, rfl⟩ := Option.map_eq_some_iff.mp h
    obtain ⟨⟨tail, rfl⟩, hno⟩ := ih hm
    refine ⟨⟨tail, rfl⟩, fun hin => ?_⟩
    rcases List.infix_cons_iff.mp hin with hp | hi
    · obtain ⟨t, ht⟩ := hp
      rw [List.cons_append, List.cons_append, List.nil_append, List.cons.injEq] at ht
      exact hc (t ++ '*' :: '/' :: tail) ht.1.symm (by rw [← ht.2]; rfl)
    · exact hno hi

theorem drop_takeWhile (c : Char → Bool) (l : List Char) : l.drop (l.takeWhile c).length = l.dropWhile c := by
  have drop : (l.takeWhile c ++ l.dropWhile c).drop (l.takeWhile c).length = l.dropWhile c := List.drop_left
  rwa [List.takeWhile_append_dropWhile] at drop

theorem pastBlanks_dropWhile (width : Char → Nat) (p : Place) :
    (p.pastBlanks width).rest = p.rest.dropWhile Text.isBlank := by
  rw [pastBlanks, forward_rest, drop_takeWhile]

theorem pastBlanks_rest (width : Char → Nat) (p : Place) :
    p.rest = p.rest.takeWhile Text.isBlank ++ (p.pastBlanks width).rest := by
  rw [pastBlanks_dropWhile, List.takeWhile_append_dropWhile]

theorem opening_isGap {width : Char → Nat} {p q : Place} {c : Comment} (h : p.opening width = .whole c q) :
    ∃ g, IsGap [c.text] g ∧ p.rest = g ++ q.rest := by
  unfold opening at h
  split at h
  · next rest hr =>
    split at h
    · cases h
    · next body hb =>
      cases h
      obtain ⟨⟨tail, rfl⟩, hno⟩ := commentBody?_eq_some hb
      refine ⟨_, .comment hno .nil, ?_⟩
      rw [forward_rest, hr]
      simp
  · cases h

/-- Skipping blanks and comments passes over a gap. -/
theorem pastGap_isGap (width : Char → Nat) (p : Place) :
    ∃ g, IsGap ((p.pastGap width).1.map Comment.text) g ∧ p.rest = g ++ (p.pastGap width).2.1.rest := by
  have blanks (p : Place) : IsGap [] (p.rest.takeWhile Text.isBlank) := .ofBlanks List.all_takeWhile
  fun_induction pastGap width p with
  | case1 p h => exact ⟨_, blanks p, pastBlanks_rest width p⟩
  | case2 p h => exact ⟨_, blanks p, pastBlanks_rest width p⟩
  | case3 p c q h cs r unclosed hq ih =>
    rw [hq] at ih
    obtain ⟨g, hg, hr⟩ := ih
    obtain ⟨k, hk, hp⟩ := opening_isGap h
    refine ⟨_, (blanks p).append (hk.append hg), ?_⟩
    have hb := pastBlanks_rest width p
    rw [hp, hr] at hb
    rw [List.append_assoc, List.append_assoc]
    exact hb

end Place

end Stylesheet
