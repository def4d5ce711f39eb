import Stylesheet.Proofs.StrictSheet

namespace Stylesheet

open Pairing (Twin)

namespace Statement

section Round

variable {owner : Owner} {first : Bool} {pending cs : List Comment} {r s t u : Reader} {st : Statement}
  {c : List Statement × List Comment} {n : Nat}

/-- One round: a gap, a statement, and what follows. -/
theorem outcome_readAllIn_statement (gap : Read.gap.outcome r = (.ok cs, t)) (going : ¬ t.place.atEnd = true)
    (hn : r.place.rest.length ≤ n)
    (item : (readItemOrSkip readFresh owner first).outcome t = (.ok (some (.statement st)), u))
    (shorter : u.place.rest.length < t.place.rest.length)
    (tail : (readAllIn u.place.rest.length owner false []).outcome u = (.ok c, s)) :
    (readAllIn n owner first pending).outcome r = (.ok (st.addComments (pending ++ cs) :: c.1, c.2), s) := by
  have suffix := Read.suffix_of_steady gap_steadyWhole gap
  have start : ¬ r.place.atEnd = true := by
    intro ended
    rw [List.isEmpty_iff.mp ended] at suffix
    exact going (List.isEmpty_iff.mpr (List.suffix_nil.mp suffix))
  have bound := Nat.le_trans suffix.length_le hn
  have behind : (readBehind n owner false).outcome u = (.ok c, s) := by
    rw [readBehind, Read.outcome_shorter, dif_pos (Nat.lt_of_lt_of_le shorter bound), tail]
  rw [readAllIn_eq, Read.outcome_bind, Read.outcome_place, Read.following_ok, if_neg start, Read.outcome_bind, gap,
    Read.following_ok, Read.outcome_bind, Read.outcome_place, Read.following_ok, if_neg going, Read.outcome_bind,
    outcome_readItemOrSkip_fresh owner first bound, item, Read.following_ok]
  dsimp only
  rw [Read.outcome_bind, behind]
  rfl

end Round

/-- What a strict reading of a sheet that ends with a block takes is the beginning of what lenient reading takes of
the text with something behind it. -/
theorem StrictRun.extended {g : Pairing} (loose : g.Loose) (whole : g.exact = true) {owner : Owner} {first : Bool}
    {pending : List Comment} {r r' s : Reader} {c : List Statement × List Comment} {n : Nat}
    (h : StrictRun owner first pending r c s) (outer : owner = .sheet) (block : c.1.getLast?.any hasBlock = true)
    (hr : g.Readers r r') (hn : r'.place.rest.length ≤ n) :
    ∃ c' s', (readAllIn n owner first pending).outcome r' = (.ok c', s') ∧ c.1 <+: c'.1 := by
  induction h generalizing r' n with
  | ending => cases block
  | closing => cases block
  | @statement first pending cs r s t u st c gap mode item shorter tail ih =>
    have live : g.Live t.place := .inr (endsBlock_of_tail outer mode item tail block (tail.endsBlock outer)).mem
    have suffix := Read.suffix_of_steady gap_steadyWhole gap
    have gaps : g.Twin True True Pairing.never (Comment.bareAll true) Read.gap Read.gap := .gap
    have hgap := gaps.agrees trivial r r' (live.imp_right suffix.mem) hr
    rw [gap] at hgap
    obtain ⟨cs', t', gap', alike, ht⟩ := hgap (.inr live)
    obtain rfl := alike.whole whole
    have items := readItemOrSkip_twin (g := g) (L := True) readFresh_twin encloses_readFresh owner first
    have hitem := items.agrees trivial t t' live ht
    rw [item] at hitem
    obtain ⟨u', item', hu, c', s', tail', next⟩ : ∃ u',
        (readItemOrSkip readFresh owner first).outcome t' = (.ok (some (.statement st)), u') ∧ g.Readers u u' ∧
          ∃ c' s', (readAllIn u'.place.rest.length owner false []).outcome u' = (.ok c', s') ∧ c.1 <+: c'.1 := by
      cases hc : c.1 with
      | nil =>
        rw [hc, List.getLast?_singleton, Option.any_some, hasBlock_addComments] at block
        obtain ⟨o, u', item', alike, hu⟩ := hitem (.inl ⟨trivial, block⟩)
        obtain rfl := alike.whole whole
        have lenient : u'.settings.lenient = true := hu.second ▸ loose.2.1
        obtain ⟨c', s', tail'⟩ := readAllIn_succeeds u'.place.rest.length owner false [] lenient
        exact ⟨u', item', hu, c', s', tail', List.nil_prefix⟩
      | cons next more =>
        rw [hc, List.getLast?_cons_cons, ← hc] at block
        obtain ⟨o, u', item', alike, hu⟩ := hitem (.inr (.inr (tail.endsBlock outer block).mem))
        obtain rfl := alike.whole whole
        rw [← hc]
        exact ⟨u', item', hu, ih block hu (Nat.le_refl _)⟩
    have going : ¬ t'.place.atEnd = true := by
      rw [Pairing.atEnd_eq ht.places live]
      intro ended
      rw [List.isEmpty_iff.mp ended] at shorter
      exact absurd shorter (Nat.not_lt_zero _)
    have shorter' : u'.place.rest.length < t'.place.rest.length := by
      rw [hu.places.length, ht.places.length]
      exact Nat.add_lt_add_right shorter _
    exact ⟨_, s', outcome_readAllIn_statement gap' going hn item' shorter' tail', List.cons_prefix_cons.mpr ⟨rfl, next⟩⟩

end Statement

theorem Unaddressed.suffix {text more rest : List Char} (h : Unaddressed text more) (hs : rest <:+ text) :
    Unaddressed rest more :=
  fun word texts gap texts' gap' l hw hg hr => h word texts gap texts' gap' l hw hg (hr.trans hs)

/-- The last character of the word of an address and a gap. -/
theorem last_of_address {word gap front x : List Char} {texts : List String} {c : Char}
    (hw : word.map Char.toLower = "url".toList) (hg : IsGap texts gap) (h : front ++ (word ++ gap) = x ++ [c]) :
    Text.isBlank c = true ∨ c = '/' ∨ c.toLower = 'l' := by
  rcases List.eq_nil_or_concat gap with rfl | ⟨y, d, hd⟩
  · rcases List.eq_nil_or_concat word with rfl | ⟨y, d, hd⟩
    · cases hw
    · rw [List.concat_eq_append] at hd
      have split : (front ++ y) ++ [d] = x ++ [c] := by rw [← h, hd, List.append_nil, List.append_assoc]
      have letters : y.map Char.toLower ++ [d.toLower] = ['u', 'r'] ++ ['l'] := by
        rw [hd, List.map_append] at hw
        exact hw
      have last := List.singleton_inj.mp (List.append_inj' split rfl).2
      exact .inr (.inr (last ▸ List.singleton_inj.mp (List.append_inj' letters rfl).2))
  · rw [List.concat_eq_append] at hd
    have split : (front ++ (word ++ y)) ++ [d] = x ++ [c] := by rw [← h, hd, List.append_assoc, List.append_assoc]
    have last := List.singleton_inj.mp (List.append_inj' split rfl).2
    rcases hg.last hd with blank | ⟨slash, -⟩
    · exact .inl (last ▸ blank)
    · exact .inr (.inl (last ▸ slash))

/-- No gap and no parenthesis begins with such a character. -/
theorem Unaddressed.of_head {text more l : List Char} {c : Char} (hm : more = c :: l)
    (hc : Text.isBlank c = false ∧ c ≠ '/' ∧ c ≠ '(') : Unaddressed text more := by
  intro word texts gap texts' gap' rest hw hg hr hg' parts
  rw [hm] at parts
  cases hg' with
  | nil =>
    cases parts
    exact hc.2.2 rfl
  | blank blank _ =>
    cases parts
    rw [hc.1] at blank
    cases blank
  | comment =>
    cases parts
    exact hc.2.1 rfl

/-- A text is tame if what is not tame cannot begin in it. -/
theorem Tame.of_drops {text : List Char} (unescaped : '\\' ∉ text)
    (unfiltered : ∀ n, n < text.length + 1 → ((text.drop n).take 7).map Char.toLower ≠ "progid:".toList)
    (unopened : '[' ∉ text) : Tame text := by
  refine ⟨unescaped, fun rest hs => ?_, fun cs gap rest _ hs => unopened (hs.mem List.mem_cons_self)⟩
  rw [List.suffix_iff_eq_drop.mp hs]
  exact unfiltered _ (Nat.lt_succ_of_le (Nat.sub_le _ _))

/-- No sign that could open a comment stands behind a block, so that one that stands behind a gap closes a comment. -/
theorem Settled.of_endsBlock {text more : List Char} (tame : Tame text) (ends : Statement.EndsBlock text)
    (unaddressed : Unaddressed text more) : Settled text more := by
  refine ⟨tame, unaddressed, fun word texts gap hw hg hs => ?_⟩
  obtain ⟨front, hfront⟩ := hs
  obtain ⟨before, comments, behind, isGap, hb⟩ := ends
  have slash : ∃ y, front ++ (word ++ gap) = y ++ ['*'] := by
    have parts : (front ++ (word ++ gap)) ++ ['/'] = before ++ '\x7d' :: behind := by
      rw [← hb, ← hfront, List.append_assoc]
    rcases List.eq_nil_or_concat behind with rfl | ⟨x, c, hx⟩
    · exact absurd (List.append_inj' parts rfl).2 (by decide)
    · rw [List.concat_eq_append] at hx
      have split : (front ++ (word ++ gap)) ++ ['/'] = (before ++ '\x7d' :: x) ++ [c] := by
        rw [parts, hx, List.append_assoc]
        rfl
      obtain ⟨left, right⟩ := List.append_inj' split rfl
      rcases isGap.last hx with blank | ⟨-, y, rfl⟩
      · rw [← List.singleton_inj.mp right] at blank
        exact absurd blank (by decide)
      · exact ⟨before ++ '\x7d' :: y, by rw [left, List.append_assoc]; rfl⟩
  obtain ⟨y, hy⟩ := slash
  rcases last_of_address hw hg hy with blank | slash | letter
  · exact absurd blank (by decide)
  · exact absurd slash (by decide)
  · exact absurd letter (by decide)

namespace Sheet

open Statement

theorem withoutMark_of_mark {text : String} {rest : List Char} (h : text.toList = '\uFEFF' :: rest) :
    withoutMark text = String.ofList rest := by
  unfold withoutMark
  split
  · next tail ht =>
    rw [h] at ht
    cases ht
    rfl
  · next other => exact absurd h (other rest)

theorem withoutMark_append {text more : String} (h : text.toList ≠ []) :
    (withoutMark (text ++ more)).toList = (withoutMark text).toList ++ more.toList := by
  cases ht : text.toList with
  | nil => exact absurd ht h
  | cons c rest =>
    have whole : (text ++ more).toList = c :: (rest ++ more.toList) := by
      rw [String.toList_append, ht]
      rfl
    by_cases mark : c = '\uFEFF'
    · subst mark
      rw [withoutMark_of_mark whole, withoutMark_of_mark ht, String.toList_ofList, String.toList_ofList]
    · have other (l : List Char) : (c :: l).head? ≠ some '\uFEFF' := fun hc => mark (Option.some.inj hc)
      rw [withoutMark_of_head (whole ▸ other _), withoutMark_of_head (ht ▸ other _), String.toList_append]

/-- What strict reading makes of a tame text that ends with a block is the beginning of what lenient reading makes of
the text and anything behind it, unless the text ends with the word of an address and a gap and a parenthesis comes
next. -/
theorem parse_extended {settings : Settings} {text : String} {sheet : Sheet} (tame : Tame text.toList)
    (strict : (parse { settings with lenient := false } text).1 = .ok sheet)
    (block : sheet.contents.getLast?.any hasBlock = true) {more : String}
    (unaddressed : Unaddressed text.toList more.toList) :
    ∃ sheet', (parse { settings with lenient := true } (text ++ more)).1 = .ok sheet' ∧
      sheet.contents <+: sheet'.contents := by
  obtain ⟨cs, s, hread⟩ := readAllIn_of_parse strict
  have run := strictRun_of_ok (r := Reader.start (withoutMark text) { settings with lenient := false } 1) rfl
    (Nat.le_refl _) hread
  have ends : EndsBlock (withoutMark text).toList := run.endsBlock rfl block
  have marked := withoutMark_suffix text
  have nonempty : text.toList ≠ [] := fun empty => by
    rw [empty] at marked
    have brace := marked.mem ends.mem
    cases brace
  have settled := Settled.of_endsBlock (tame.suffix marked) ends (unaddressed.suffix marked)
  let g : Pairing := ⟨{ settings with lenient := false }, { settings with lenient := true }, (withoutMark text).toList,
    more.toList, 0, true, fun _ => rfl, .inr ⟨rfl, rfl, settled⟩⟩
  have readers : g.Readers (Reader.start (withoutMark text) { settings with lenient := false } 1)
      (Reader.start (withoutMark (text ++ more)) { settings with lenient := true } 1) :=
    ⟨rfl, rfl, rfl, withoutMark_append nonempty, rfl, rfl, fun _ => rfl⟩
  obtain ⟨c, t, hc, next⟩ := run.extended ⟨rfl, rfl, settled⟩ rfl rfl block readers (Nat.le_refl _)
  exact ⟨_, parse_of_readAllIn hc, next⟩

/-- A sheet whose block stands in what is taken for a comment once a parenthesis follows; here a rule follows. -/
theorem parse_extended_import :
    Tame "@import url/* ;a{}/**/".toList ∧ Unaddressed "@import url/* ;a{}/**/".toList "b{c:d}/*(".toList ∧
      ∃ sheet, (parse { lenient := false } "@import url/* ;a{}/**/").1 = .ok sheet ∧
        sheet.contents.getLast?.any hasBlock = true ∧
        ∃ sheet', (parse { lenient := true } ("@import url/* ;a{}/**/" ++ "b{c:d}/*(")).1 = .ok sheet' ∧
          sheet.contents <+: sheet'.contents := by
  have tame : Tame "@import url/* ;a{}/**/".toList := .of_drops (by decide) (by decide +kernel) (by decide)
  have unaddressed : Unaddressed "@import url/* ;a{}/**/".toList "b{c:d}/*(".toList :=
    .of_head (c := 'b') rfl (by decide)
  have read : (parse { lenient := false } "@import url/* ;a{}/**/").1.toOption.any
      (fun sheet => sheet.contents.getLast?.any hasBlock) = true := by decide +kernel
  cases strict : (parse { lenient := false } "@import url/* ;a{}/**/").1 with
  | error e =>
    rw [strict] at read
    cases read
  | ok sheet =>
    rw [strict] at read
    exact ⟨tame, unaddressed, sheet, rfl, read, @parse_extended {} _ _ tame strict read _ unaddressed⟩

/-- What stands between the word of an address and the parenthesis that follows it is no statement any more. -/
theorem parse_not_extended :
    Tame "@import url/* ;a{}/**/".toList ∧
      ∃ sheet sheet', (parse { lenient := false } "@import url/* ;a{}/**/").1 = .ok sheet ∧
        sheet.contents.getLast?.any hasBlock = true ∧
        (parse { lenient := true } ("@import url/* ;a{}/**/" ++ "(")).1 = .ok sheet' ∧
        ¬ sheet.contents <+: sheet'.contents := by
  have tame : Tame "@import url/* ;a{}/**/".toList := .of_drops (by decide) (by decide +kernel) (by decide)
  have read : (parse { lenient := false } "@import url/* ;a{}/**/").1.toOption.any
      (fun sheet => sheet.contents.getLast?.any hasBlock) = true := by decide +kernel
  have lost : (parse { lenient := true } ("@import url/* ;a{}/**/" ++ "(")).1.toOption.any
      (fun sheet => sheet.contents.isEmpty) = true := by decide +kernel
  cases strict : (parse { lenient := false } "@import url/* ;a{}/**/").1 with
  | error e =>
    rw [strict] at read
    cases read
  | ok sheet =>
    cases lenient : (parse { lenient := true } ("@import url/* ;a{}/**/" ++ "(")).1 with
    | error e =>
      rw [lenient] at lost
      cases lost
    | ok sheet' =>
      rw [strict] at read
      rw [lenient] at lost
      refine ⟨tame, sheet, sheet', rfl, read, rfl, fun kept => ?_⟩
      have empty : sheet'.contents = [] := List.isEmpty_iff.mp lost
      rw [empty, List.prefix_nil] at kept
      change sheet.contents.getLast?.any hasBlock = true at read
      rw [kept] at read
      cases read

end Sheet

end Stylesheet
