import Stylesheet.Proofs.Coincidence
import Stylesheet.Proofs.TwinSheet

namespace Stylesheet.Statement

open Read (Advances SameIn Steady)

/-- A name is not read without its at-sign. -/
theorem readAtName_advances : Advances readAtName := by
  refine .behind (fun _ => .place) fun p => .first (Advances.literal (by decide)).discard fun _ _ => ?_
  refine (Steady.identifier true).bind fun name => gap_steady.discard.bind fun _ => Steady.here fun q _ => ?_
  exact (Steady.note _ _).bind fun _ => .pure _

theorem accept_steady {text : List Char} (owner : Owner) (first : Bool) (l : Location) (o : Option Statement) :
    SteadyWhole text (accept owner first l o) := by
  cases o with
  | none => exact .pure _
  | some st =>
    unfold accept
    dsimp only
    split
    · exact (admitCharset_steady _ _ _ _).bind fun _ => .pure _
    · exact .pure _

variable {R : Region} {readBody readBody' : Owner → Read Sheet}

theorem readAtRule_advances (hb : ∀ owner text, SteadyWhole text (readBody owner)) :
    Advances (readAtRule readBody) := by
  intro r o s h
  rw [readAtRule_eq] at h
  obtain ⟨n, t, hn, h⟩ := Read.ok_of_bind h
  exact (readAtName_advances r n t hn).reaches ((readNamed_steady (fun owner => hb owner _) n.1 n.2).reaches h)

section Bodies

variable (same : ∀ owner, SameIn R (readBody owner) (readBody' owner))

include same

theorem readBlockRule_same (name : String) (p : Position) :
    SameIn R (readBlockRule readBody name p) (readBlockRule readBody' name p) := by
  refine .here fun q => .next (fun _ => .upTo _ _ _) fun args => .here fun stop => ?_
  refine .ite (.next (fun _ => .skip 1) fun _ => .throwBind) ?_
  refine .next (fun _ => (Steady.literal _).discard) fun _ => .ite (.refl _) ?_
  exact .ite (.bindLeft (same _) _) (.refl _)

theorem readNamed_same (name : String) (p : Position) :
    SameIn R (readNamed readBody name p) (readNamed readBody' name p) := by
  refine .ite (.refl _) (.ite (.refl _) (.ite (.refl _) (.ite (.map _ ?_) (readBlockRule_same same name p))))
  exact .next (fun _ => .upTo _ _ _) fun animation => .bindLeft (same _) _

end Bodies

section Items

variable (same : ∀ owner, SameIn R.behind (readBody owner) (readBody' owner))

include same

theorem readAtRule_same : SameIn R (readAtRule readBody) (readAtRule readBody') := by
  rw [readAtRule_eq, readAtRule_eq]
  exact .first readAtName_advances fun n => readNamed_same same n.1 n.2

/-- The bodies inside an item begin behind its first character. -/
theorem readItem_same (owner : Owner) (first : Bool) :
    SameIn R (readItem readBody owner first) (readItem readBody' owner first) := by
  rw [readItem_eq, readItem_eq]
  exact .here fun p => .ite (.bindLeft (readAtRule_same same) _) (.refl _)

theorem readItemOrSkip_same (owner : Owner) (first : Bool) :
    SameIn R (readItemOrSkip readBody owner first) (readItemOrSkip readBody' owner first) := by
  intro r hr
  rw [outcome_readItemOrSkip, outcome_readItemOrSkip, (readItem_same same owner first).map some r hr]

end Items

end Stylesheet.Statement
