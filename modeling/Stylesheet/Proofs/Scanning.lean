import Stylesheet.Sheet.Reading

namespace Stylesheet.Place

theorem spelling_eq (s : Settings) (p : Place) :
    p.spelling s =
      if p.goesOn s then
        match p.piece s with
        | (.ok piece, q) => ((q.spelling s).1.map (piece.spell ++ ·), (q.spelling s).2)
        | (.error e, q) => (.error e, q)
      else (.ok [], p) := by
  rw [spelling]
  split
  · split <;> next hq => rw [hq]
  · rfl

theorem goesOn_of_identifier {s : Settings} {p : Place} {t : List Char} (h : (p.identifier s).1 = .ok t) :
    p.goesOn s = true := by
  unfold identifier at h
  split at h
  · cases h
  · split at h
    · assumption
    · cases h

theorem identifier_eq_spelling {s : Settings} {p : Place} (h : p.goesOn s = true) :
    p.identifier s = p.spelling s := by
  have more : p.atEnd = false := by
    have nonempty := rest_ne_nil_of_goesOn h
    simpa [atEnd] using nonempty
  rw [identifier, more, if_neg Bool.false_ne_true, if_pos h]

theorem textUpTo_of_nil {s : Settings} {ends : Char → Bool} {p : Place} (h : p.rest = []) :
    p.textUpTo s ends = (.ok [], p) := by
  rw [textUpTo]
  split
  · rfl
  · next hr => rw [h] at hr; cases hr

theorem textUpTo_of_cons {s : Settings} {ends : Char → Bool} {p : Place} {c : Char} {rest : List Char}
    (h : p.rest = c :: rest) :
    p.textUpTo s ends =
      if ends c then (.ok [], p)
      else match p.piece s with
        | (.ok piece, q) => ((q.textUpTo s ends).1.map (piece.toChars ++ ·), (q.textUpTo s ends).2)
        | (.error e, q) => (.error e, q) := by
  rw [textUpTo]
  split
  · next hr => rw [h] at hr; cases hr
  · next hr =>
    rw [h] at hr
    cases hr
    split
    · rfl
    · split <;> next hq => rw [hq]

theorem pastGap_eq (width : Char → Nat) (p : Place) :
    p.pastGap width =
      match (p.pastBlanks width).opening width with
      | .absent => ([], p.pastBlanks width, false)
      | .unclosed => ([], p.pastBlanks width, true)
      | .whole c q => (c :: (q.pastGap width).1, (q.pastGap width).2) := by
  rw [pastGap]
  split <;> next h => rw [h]

theorem upTo_of_nil {width : Char → Nat} {stops : List Char} {p : Place} (h : p.rest = []) :
    p.upTo width stops = ⟨[], [], p, .exhausted⟩ := by
  rw [upTo]
  split
  · rfl
  · next hr => rw [h] at hr; cases hr

theorem upTo_of_cons {width : Char → Nat} {stops : List Char} {p : Place} {c : Char} {rest : List Char}
    (h : p.rest = c :: rest) :
    p.upTo width stops =
      if c ∈ stops then ⟨[], [], p, .found⟩
      else match (p.next width).opening width with
        | .absent =>
          { (p.next width).upTo width stops with text := c :: ((p.next width).upTo width stops).text }
        | .unclosed => ⟨[c], [], (p.next width).toEnd width, .unclosed⟩
        | .whole k q =>
          { q.upTo width stops with
            text := c :: (q.upTo width stops).text, comments := k :: (q.upTo width stops).comments } := by
  rw [upTo]
  split
  · next hr => rw [h] at hr; cases hr
  · next hr =>
    rw [h] at hr
    cases hr
    split
    · rfl
    · split <;> next hq => rw [hq]

/-- The quote that is open behind a character. -/
def quoteBehind (quote : Option Char) (c : Char) : Option Char :=
  if c = '"' || c = '\'' then
    match quote with
    | none => some c
    | some q => if q = c then none else some q
  else quote

/-- The parentheses that are open behind a character. -/
def depthBehind (quote : Option Char) (depth : Nat) (c : Char) : Nat :=
  if quote.isSome then depth else if c = '(' then depth + 1 else if c = ')' then depth - 1 else depth

/-- Selector text goes on with `taken` and the comments `passed` in front of what is read from `q` on. -/
def selectorMore (s : Settings) (taken : List Char) (passed : List Comment) (quote : Option Char) (depth : Nat)
    (q : Place) : Except Fault (List Char × List Comment) × Place :=
  ((q.selectorText s quote depth).1.map fun (text, comments) => (taken ++ text, passed ++ comments),
    (q.selectorText s quote depth).2)

theorem selectorText_eq (s : Settings) (quote : Option Char) (depth : Nat) (p : Place) :
    p.selectorText s quote depth =
      match if quote.isNone then p.opening s.width else .absent with
      | .unclosed => (.error (.unexpectedEnd "1 character" (p.toEnd s.width).location), p.toEnd s.width)
      | .whole c q => selectorMore s [] [c] quote depth q
      | .absent =>
        match p.rest with
        | [] => (.error (.unexpectedEnd "`\x7b` after selectors" p.location), p)
        | c :: rest =>
          if c = '\x7b' && quote.isNone then
            if 0 < depth then (.error (.unexpectedToken "`)`" "\x7b" p.location), p)
            else (.ok ([], []), p)
          else if c = '\x7d' && quote.isNone then
            (.error (.unexpectedToken "`\x7b` after selectors" "\x7d" p.location), p)
          else if c = '\\' then
            match rest with
            | [] => (.error (.unexpectedEnd "2 characters" p.location), p)
            | d :: _ => selectorMore s [c, d] [] quote depth (p.forward s.width 2)
          else if c = ')' && quote.isNone && depth = 0 then
            (.error (.unexpectedToken "a selector" ")" p.location), p)
          else selectorMore s [c] [] (quoteBehind quote c) (depthBehind quote depth c) (p.next s.width) := by
  rw [selectorText]
  split
  · next ho => simp only [ho]
  · next ho => simp only [ho]; rfl
  · next ho =>
    simp only [ho]
    split
    · next hr => simp only [hr]
    · next c rest hr =>
      simp only [hr]
      split
      · rfl
      · split
        · rfl
        · split
          · split
            · rfl
            · rfl
          · cases quote <;> rfl

end Stylesheet.Place

namespace Stylesheet.Statement

/-- Takes statements where fewer than `n` characters are left. -/
def readBehind (n : Nat) (owner : Owner) (first : Bool) : Read (List Statement × List Comment) :=
  Read.shorter n (fun m _ => readAllIn m owner first []) (pure ([], []))

/-- Takes a body inside another one. -/
def readInside (n : Nat) (owner : Owner) : Read Sheet := do
  let (ss, cs) ← readBehind n owner true
  return { contents := ss, trailing := cs }

/-- What the reader of at-rules takes behind the name and the gap. -/
def readNamed (readBody : Owner → Read Sheet) (name : String) (p : Position) : Read (Option Statement) :=
  if name = "import" then some <$> readImport p
  else if name = "charset" then some <$> readCharset p
  else if name = "namespace" then some <$> readNaming p
  else if AtName.isKeyframes name then some <$> readKeyframes readBody name p
  else readBlockRule readBody name p

/-- Takes the at-sign and the name of an at-rule, with the gap behind it. -/
def readAtName : Read (String × Position) := do
  let p ← Read.place
  discard (Read.literal "@")
  let name ← Read.identifier true
  discard Read.gap
  Read.note .trace ("Parsing @" ++ name ++ " at " ++ (← Read.place).location.text)
  return (name, p.position)

theorem readAtRule_eq (readBody : Owner → Read Sheet) :
    readAtRule readBody = readAtName >>= fun n => readNamed readBody n.1 n.2 := by
  simp only [readAtName, bind_assoc, pure_bind]
  rfl

theorem readAllIn_eq (n : Nat) (owner : Owner) (first : Bool) (pending : List Comment) :
    readAllIn n owner first pending = do
      if (← Read.place).atEnd then readEnd owner pending
      else
        let pending := pending ++ (← Read.gap)
        if (← Read.place).atEnd then readEnd owner pending
        else
          match ← readItemOrSkip (readInside n) owner first with
          | none => return ([], pending)
          | some .closing => return ([], pending)
          | some .omitted => readBehind n owner first
          | some (.statement s) =>
            let (ss, cs) ← readBehind n owner false
            return (s.addComments pending :: ss, cs) := by
  rw [readAllIn]
  rfl

end Stylesheet.Statement
