import LetScript.CommandLine.Report
import LetScript.Proofs.Boundaries
import LetScript.Proofs.Lines

/-!
# How far a report goes

The caret of a diagnostic can be drawn up to a certain width. A report shows the diagnostics of a
source in order as long as they keep to it, and the first that does not breaks the report off. On a
source that is no longer than the width there is none such.
-/

namespace LetScript

namespace Diagnostic

variable {source : String} {diagnostic : Diagnostic} {first diagnostics : List Diagnostic}

/-- The dashes and the caret together are not too wide. -/
def Fits (source : String) (diagnostic : Diagnostic) : Prop := diagnostic.dashes source < 65535

instance (source : String) (diagnostic : Diagnostic) : Decidable (diagnostic.Fits source) :=
  inferInstanceAs (Decidable (_ < _))

theorem draw?_of_fits (h : diagnostic.Fits source) :
    diagnostic.draw? source = some (diagnostic.render source) :=
  if_pos h

theorem draw?_of_not_fits (h : ¬ diagnostic.Fits source) : diagnostic.draw? source = none :=
  if_neg h

/-- There are no more dashes than bytes in the source. -/
theorem dashes_le (diagnostic : Diagnostic) (source : String) :
    diagnostic.dashes source ≤ source.utf8ByteSize := by
  obtain ⟨-, hoffset, -⟩ := locate_eq source diagnostic.position.offset
  have hlength : (Utf8.encode source).length = source.utf8ByteSize := Utf8.length_encode source
  rw [dashes]
  omega

theorem fits_of_size_lt (h : source.utf8ByteSize < 65535) (diagnostic : Diagnostic) :
    diagnostic.Fits source :=
  Nat.lt_of_le_of_lt (diagnostic.dashes_le source) h

/-- Diagnostics that fit are drawn, and then those after them. -/
theorem drawAll_append (h : ∀ diagnostic ∈ first, diagnostic.Fits source)
    (rest : List Diagnostic) :
    drawAll source (first ++ rest) =
      (String.join (first.map (·.render source)) ++ (drawAll source rest).1,
        (drawAll source rest).2) := by
  induction first with
  | nil => simp [String.join]
  | cons diagnostic first ih =>
    obtain ⟨hfits, hmore⟩ := List.forall_mem_cons.mp h
    rw [List.cons_append, drawAll, draw?_of_fits hfits, ih hmore, List.map_cons, String.join_cons,
      String.append_assoc]

/-- All of the diagnostics fit, or there is a first one that does not. -/
theorem forall_fits_or (source : String) (diagnostics : List Diagnostic) :
    (∀ diagnostic ∈ diagnostics, diagnostic.Fits source) ∨
      ∃ first diagnostic second, diagnostics = first ++ diagnostic :: second ∧
        (∀ diagnostic ∈ first, diagnostic.Fits source) ∧ ¬ diagnostic.Fits source := by
  cases hfind : diagnostics.find? fun diagnostic => ¬ diagnostic.Fits source with
  | none => exact .inl fun diagnostic hmem => by simpa using List.find?_eq_none.mp hfind _ hmem
  | some diagnostic =>
    obtain ⟨hwide, first, second, hsplit, hfirst⟩ := List.find?_eq_some_iff_append.mp hfind
    exact .inr ⟨first, diagnostic, second, hsplit, by simpa using hfirst, by simpa using hwide⟩

end Diagnostic

namespace Report

variable {source : String} {file : Option String}

theorem ofSource_of_ne_nil (h : (parse source file).2 ≠ []) :
    ofSource source file =
      ⟨if (Diagnostic.drawAll source (parse source file).2).2 then .refused else .brokenOff,
        "parser errors:\n" ++ (Diagnostic.drawAll source (parse source file).2).1⟩ := by
  unfold ofSource
  split
  next hparse => exact absurd (congrArg Prod.snd hparse) h
  next hparse => rw [hparse]

/-- A report on diagnostics that all fit shows them all. -/
theorem ofSource_of_fits (hne : (parse source file).2 ≠ [])
    (h : ∀ diagnostic ∈ (parse source file).2, diagnostic.Fits source) :
    ofSource source file =
      ⟨.refused,
        "parser errors:\n" ++ String.join ((parse source file).2.map (·.render source))⟩ := by
  have hall := Diagnostic.drawAll_append h []
  rw [List.append_nil] at hall
  rw [ofSource_of_ne_nil hne, hall]
  simp [Diagnostic.drawAll]

/-- A report breaks off at the first diagnostic that does not fit. -/
theorem ofSource_of_wide {first second : List Diagnostic} {diagnostic : Diagnostic}
    (h : (parse source file).2 = first ++ diagnostic :: second)
    (hfirst : ∀ diagnostic ∈ first, diagnostic.Fits source)
    (hwide : ¬ diagnostic.Fits source) :
    ofSource source file =
      ⟨.brokenOff, "parser errors:\n" ++ String.join (first.map (·.render source))⟩ := by
  have hne : (parse source file).2 ≠ [] := by simp [h]
  rw [ofSource_of_ne_nil hne, h, Diagnostic.drawAll_append hfirst, Diagnostic.drawAll,
    Diagnostic.draw?_of_not_fits hwide]
  simp

theorem verdict_eq_clean_iff :
    (ofSource source file).verdict = .clean ↔ (parse source file).2 = [] := by
  by_cases hnil : (parse source file).2 = []
  · refine iff_of_true ?_ hnil
    unfold ofSource
    split
    next => rfl
    next hne hparse => exact absurd ((congrArg Prod.snd hparse).symm.trans hnil) hne
  · refine iff_of_false ?_ hnil
    rw [ofSource_of_ne_nil hnil]
    cases (Diagnostic.drawAll source (parse source file).2).2 <;> exact Verdict.noConfusion

theorem verdict_eq_brokenOff_iff :
    (ofSource source file).verdict = .brokenOff ↔
      ∃ diagnostic ∈ (parse source file).2, ¬ diagnostic.Fits source := by
  rcases Diagnostic.forall_fits_or source (parse source file).2 with
    hfits | ⟨first, diagnostic, second, hsplit, hfirst, hwide⟩
  · have hnone : ¬ ∃ diagnostic ∈ (parse source file).2, ¬ diagnostic.Fits source :=
      fun ⟨diagnostic, hmem, hwide⟩ => hwide (hfits diagnostic hmem)
    refine iff_of_false ?_ hnone
    by_cases hnil : (parse source file).2 = []
    · rw [verdict_eq_clean_iff.mpr hnil]
      exact Verdict.noConfusion
    · rw [ofSource_of_fits hnil hfits]
      exact Verdict.noConfusion
  · rw [ofSource_of_wide hsplit hfirst hwide]
    exact iff_of_true rfl ⟨diagnostic, by simp [hsplit], hwide⟩

/-- A run on a file succeeds just if there is nothing to object to. -/
theorem code_eq_zero_iff :
    (ofSource source file).verdict.code = 0 ↔ (parse source file).2 = [] := by
  rw [← verdict_eq_clean_iff]
  cases (ofSource source file).verdict <;> decide

/-- A run on a file breaks off just if a diagnostic does not fit. -/
theorem code_eq_brokenOff_iff :
    (ofSource source file).verdict.code = 101 ↔
      ∃ diagnostic ∈ (parse source file).2, ¬ diagnostic.Fits source := by
  rw [← verdict_eq_brokenOff_iff]
  cases (ofSource source file).verdict <;> decide

end Report

end LetScript
