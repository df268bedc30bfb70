import RowLang.Proofs.Expr.Forms
import RowLang.Proofs.Report.Picture
import RowLang.Proofs.Session.Answers

/-!
# Proofs/Session/Pictured — the issue of an unreadable text points at the trouble

Where every reading of a program leaves something, a question about it posts one issue, and the
carets of its picture stand under the first word of what is left (`stuck_pictured`), whoever draws
it as documented.
-/

namespace RowLang

/-- One issue, with a picture in which the carets stand under a word, as it is drawn. -/
def Issue.Marks (draw : Illustrator) (word : List Char) (issues : List Issue) : Prop :=
  ∃ (issue : Issue) (p : Picture), issues = [issue] ∧ issue.picture = some p ∧
    issue.lines draw = issue.intro :: "" :: String.ofList (p.chars draw) :: issue.footer ∧
      Picture.Underlines word (p.chars draw)

namespace Session

variable {draw : Illustrator} {s : Session} {source : String} {remainder : List Char} {offset : Nat}

/-- The issue of a text that the reader is stuck in. -/
theorem marks_unreadable (hdraw : draw.Documented)
    (h : Expr.parse source.toList = .error (.stuck remainder offset)) (hs : s.issues = []) :
    Issue.Marks draw ((source.toList.drop offset).takeWhile fun c => !Text.isBlank c)
      ((complain source (.unreadable (.stuck remainder offset))).run s).2.issues := by
  obtain ⟨hlt, hdrop, ⟨c, hc, hblank⟩, -⟩ := Expr.onward_grammar.stuck h
  have hpicture : Issue.pictureOf source (some offset) = some (.ofOffset source.toList offset) :=
    if_pos hlt
  rw [run_complain]
  refine ⟨_, _, congrArg (· ++ _) hs, hpicture, ?_,
    Picture.underlines_ofOffset hdraw (hdrop.symm ▸ hc) hblank⟩
  simp only [Issue.lines, Issue.failure, Trouble.offset?, ParseError.offset?, hpicture]
  rfl

/-- **The carets stand under the first word that is left**, whatever the question and whoever draws.
-/
theorem stuck_pictured (draw : Illustrator) (hdraw : draw.Documented) (s : Session)
    (source : String) (remainder : List Char) (offset : Nat)
    (h : Expr.parse source.toList = .error (.stuck remainder offset)) :
    source.toList.drop offset = remainder ∧
      Issue.Marks draw (remainder.takeWhile fun c => !Text.isBlank c)
        ((evaluate source).run s).2.issues ∧
        ∀ solve, Issue.Marks draw (remainder.takeWhile fun c => !Text.isBlank c)
          ((typeOf source solve).run s).2.issues := by
  obtain rfl := (Expr.onward_grammar.stuck h).2.1
  have hreading (next : Expr → Acting Answer) :
      reading source next = complain source
        (.unreadable (.stuck (source.toList.drop offset) offset)) := by
    unfold reading
    rw [h]
  refine ⟨rfl, ?_, fun solve => ?_⟩
  · rw [evaluate, hreading]
    exact marks_unreadable hdraw (s := { s with world := s.cleared }) h rfl
  · rw [typeOf, hreading]
    exact marks_unreadable hdraw (s := { s with world := s.cleared, solver := {} }) h rfl

/-- Behind a tab, a wide blank and lines that end in three ways, the reader is stuck at two
brackets. -/
theorem stuck_pictured_brackets : Illustrator.byLines.Documented ∧
    Expr.parse "x;\r\n\t\u3000y;\r\"\n\" )] \n z".toList = .error (.stuck ")] \n z".toList 13) ∧
      Issue.Marks .byLines [')', ']']
        ((evaluate "x;\r\n\t\u3000y;\r\"\n\" )] \n z").run {}).2.issues := by
  have h : Expr.parse "x;\r\n\t\u3000y;\r\"\n\" )] \n z".toList
      = .error (.stuck ")] \n z".toList 13) := by rfl
  have hdraw := Illustrator.documented_byLines
  exact ⟨hdraw, h, (stuck_pictured .byLines hdraw {} _ _ _ h).2.1⟩

end Session

end RowLang
