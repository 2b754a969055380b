import Dialogue.Proofs.Grammar.Agreement
import Dialogue.Proofs.Grammar.Completeness
import Dialogue.Proofs.Grammar.Deciding
import Dialogue.Proofs.Grammar.Holds
import Dialogue.Proofs.Grammar.Soundness

/-! The language of scripts. What is parsed is a document, and every document is parsed from
what is printed of it. -/
namespace Dialogue

variable {options : Options}

/-- Parsing what is printed of a document gives the document. Nothing is wrong with it but
jumps to sections that are not there. -/
theorem exists_parse_print {document : Document} (h : document.WellFormed) :
    ∃ (script : Script) (reading : Reading),
      (parse options .lenient document.print).result = .ok script ∧
      script.tree.Spells reading.entries ∧ Sketch.shape reading.entries = document.shape ∧
      script.diagnostics.map Diagnostic.cause =
        (document.jumps.filter (· ∉ document.names)).map .unknownScope := by
  obtain ⟨reading, hread, hshape, hdiagnostics⟩ := Reading.exists_read_of_document options h
  obtain ⟨script, hparse⟩ := exists_ok_of_read hread
  obtain ⟨other, hother, hspells, hcauses⟩ := exists_spells_of_ok hparse
  obtain rfl : other = reading := Except.ok.inj (hother.symm.trans hread)
  refine ⟨script, other, hparse, hspells, hshape, ?_⟩
  have hunknown (key : String) :
      (script.tree.find? key).isNone = decide (key ∉ document.names) := by
    rw [← Document.keys_shape h, ← hshape, Tree.find?, hspells.names, Bool.eq_iff_iff,
      Option.isNone_iff_eq_none, Sketch.lookup_names_eq_none_iff, decide_eq_true_iff]
  rw [hcauses, hdiagnostics, Sketch.map_snd_jumps, hshape, ← Document.jumps_eq]
  simp [hunknown]

/-- What is parsed is a document that can be printed, and the same tree is parsed again. -/
theorem exists_document_of_parse {source : String} {script : Script}
    (hpolicy : options.duplicates = .fail)
    (h : (parse options .lenient source).result = .ok script) :
    ∃ document : Document, document.WellFormed ∧ script.tree.Holds document ∧
      ∃ again, (parse options .lenient document.print).result = .ok again ∧
        again.tree.Agrees script.tree := by
  obtain ⟨reading, hread, hspells, _⟩ := exists_spells_of_ok h
  obtain ⟨document, hformed, hshape⟩ :=
    hspells.exists_document (Reading.sound_of_read hpolicy hread)
  obtain ⟨again, other, hparse, hagain, hsame, _⟩ := exists_parse_print hformed
  refine ⟨document, hformed, Tree.holds_of_shape hspells hshape.symm, again, hparse, ?_⟩
  exact Tree.agrees_of_shape hagain hspells (hsame.trans hshape)

/-- What can be parsed is what can be printed. A script is one document, which is parsed again
from what is printed of it, and every document that is well formed is found that way. -/
theorem parse_exact :
    (∀ (source : String) (script : Script), (parse {} .lenient source).result = .ok script →
      ∃ document : Document, document.WellFormed ∧ script.tree.Holds document ∧
        (∀ other : Document, other.WellFormed → script.tree.Holds other → other = document) ∧
        ∃ again, (parse {} .lenient document.print).result = .ok again ∧
          again.tree.Agrees script.tree) ∧
    ∀ document : Document, document.WellFormed →
      ∃ script, (parse {} .lenient document.print).result = .ok script ∧
        script.tree.Holds document ∧
        script.diagnostics.map Diagnostic.cause =
          (document.jumps.filter (· ∉ document.names)).map .unknownScope := by
  constructor
  · intro source script hparse
    obtain ⟨document, hformed, hholds, hagain⟩ := exists_document_of_parse rfl hparse
    refine ⟨document, hformed, hholds, fun other hother hsame => ?_, hagain⟩
    exact hother.eq hformed (hsame.outline_eq hholds)
  · intro document hformed
    obtain ⟨script, reading, hparse, hspells, hshape, hcauses⟩ := exists_parse_print hformed
    exact ⟨script, hparse, Tree.holds_of_shape hspells hshape, hcauses⟩

/-- A command of two lines with a choice in it, and a section that jumps out of the script. -/
theorem parse_exact_of_small :
    let document : Document := ⟨.block (.command "go\non")
        (.block (.choice "yes" (some "if")) (.leaf (.line "so") .done) .done) .done,
      [("end", .leaf (.jump "gone" none) .done)]⟩
    ∃ script, (parse {} .lenient "# go\n# on\n\t* yes#if#\n\t\tso\n= end\n-> gone\n").result =
        .ok script ∧
      script.tree.Holds document ∧
      script.diagnostics.map Diagnostic.cause = [.unknownScope "gone"] ∧
      ∃ other : Document, script.tree.Holds other ∧ other = document := by
  intro document
  have hformed : document.WellFormed := by
    decide +kernel
  have hprint : document.print = "# go\n# on\n\t* yes#if#\n\t\tso\n= end\n-> gone\n" := by
    decide +kernel
  obtain ⟨script, hparse, hholds, hcauses⟩ := parse_exact.2 document hformed
  obtain ⟨other, _, hother, hunique, _⟩ := parse_exact.1 document.print script hparse
  rw [hprint] at hparse
  exact ⟨script, hparse, hholds, hcauses, other, hother, (hunique document hformed hholds).symm⟩

end Dialogue
