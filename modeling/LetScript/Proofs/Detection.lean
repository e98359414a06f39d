import LetScript.Proofs.Locality

/-!
# What a failing routine has seen

A diagnostic stands at a token, and what comes after that token has not been looked at when it is
given. So the routine fails with the same diagnostic wherever the tokens up to this one are the
same, whatever follows.

A routine `Detects` the failure if, in addition, what stands before the token can be completed to a
phrase of the language it reads. Then the token is the first one that cannot stand where it does.
Both halves are kept when routines are put together: by the part that fails, by parts that succeed
before it, and by the rounds of a loop. Only the completions differ from one routine to the other.
-/

namespace LetScript

open Routine

/-- The cursors see the same, and something is left for both. -/
structure Cursor.Alike (c c' : Cursor) : Prop where
  current : c'.current = c.current
  peek : c'.peek = c.peek
  openBraces : c'.openBraces = c.openBraces
  tail_ne_nil : c.tokens.tail ≠ []
  tail_ne_nil' : c'.tokens.tail ≠ []

theorem Cursor.Alike.peekEndsStatement {c c' : Cursor} (h : c.Alike c') :
    c'.peekEndsStatement = c.peekEndsStatement := by
  rw [Cursor.peekEndsStatement, Cursor.peekEndsStatement, h.peek, h.openBraces]

/-- Before the end of a common front the cursors see the same. -/
theorem Cursor.Shares.alike {left right : List Token} {c c' : Cursor} (h : c.Shares left right c')
    (hleft : left.length < c.tokens.tail.length) : c.Alike c' := by
  obtain ⟨token, front, htail, htail'⟩ := h.exists_front hleft
  exact ⟨h.current, h.peek hleft, h.openBraces, by simp [htail], by simp [htail']⟩

theorem Cursor.Reaches.length_tail_le {c stop : Cursor} (h : c.Reaches stop) :
    stop.tokens.tail.length ≤ c.tokens.tail.length := by
  rw [List.length_tail, List.length_tail]
  exact Nat.sub_le_sub_right h.length_tokens_le 1

/-- What a cursor has not passed yet is left for every cursor before it. -/
theorem Cursor.Reaches.length_lt {c between : Cursor} {token : Token} {left : List Token}
    (h : c.Reaches between) (htail : between.tokens.tail = token :: left) :
    left.length < c.tokens.tail.length :=
  Nat.lt_of_lt_of_le (by simp [htail]) h.length_tail_le

/-- What the routine reads within a common front of two inputs, it reads from both. -/
def Routine.Steady {α : Type} (routine : Routine α) : Prop :=
  ∀ ⦃left right : List Token⦄ ⦃c c' mid : Cursor⦄ ⦃value : α⦄, c.Shares left right c' →
    routine.run c = (.ok value, mid) → left.length < mid.tokens.tail.length →
      ∃ mid', routine.run c' = (.ok value, mid') ∧ mid.Shares left right mid'

/-- A routine is steady if it follows itself as far as two inputs share their tokens. -/
theorem Routine.Follows.steady {α : Type} {routine : Routine α} {f : α → α}
    {after : List Token → List Token → Cursor → Prop} (hf : ∀ value, f value = value)
    (h : ∀ left right, Follows (.sharing left right) (Simulation.sharing left right).Sees
      (after left right) f routine routine) : routine.Steady := by
  intro left right c c' mid value hshares hrun hlength
  have hends := h left right c c' hshares (fun hblind => hblind)
  rw [hrun] at hends
  generalize routine.run c' = outcome at hends
  cases hends with
  | ok _ hstop _ =>
    rw [hf]
    exact ⟨_, rfl, hstop⟩
  | lost hlost => exact absurd hlength (Nat.not_lt.mpr hlost)

/-- One round of a loop is the same wherever the same is seen. -/
theorem Routine.run_whileNext_of_alike {α γ : Type} {test : Cursor → Option γ} {found : γ}
    {c c' : Cursor} (htest : ∀ {c c'}, Cursor.Alike c c' → test c' = test c)
    (hfound : test c = some found) (halike : c.Alike c') (body : γ → α → Routine α) (value : α) :
    (whileNext test body value).run c' =
      (advance >>= fun _ => body found value >>= whileNext test body).run c' := by
  have hleft : c'.tokens ≠ [] := fun hnil => halike.tail_ne_nil' (by simp [hnil])
  rw [run_whileNext_of_eq_some ((htest halike).trans hfound) hleft, run_advance_bind]

namespace Routine.Steady

variable {α β γ : Type}

theorem advance : advance.Steady :=
  Follows.steady (fun _ => rfl) fun _ _ => .advance

theorem peekKind : peekKind.Steady :=
  Follows.steady (fun _ => rfl) fun _ _ => .peekKind

theorem expectPeek (kind : Kind) : (expectPeek kind).Steady :=
  Follows.steady (fun _ => rfl) fun _ _ => .expectPeek kind

theorem pure (value : α) : (pure value : Routine α).Steady :=
  Follows.steady (fun _ => rfl) fun _ _ => .pure rfl

theorem bind {first : Routine α} {next : α → Routine β} (h : first.Steady)
    (hnext : ∀ value, (next value).Steady) : (first >>= next).Steady := by
  intro left right c c' mid result hshares hrun hlength
  obtain ⟨value, between, hfirst, hrest⟩ := run_bind_eq_ok_iff.mp hrun
  have hbetween : between.Reaches mid := by simpa only [hrest] using (next value).reaches between
  obtain ⟨between', hfirst', hshares'⟩ :=
    h hshares hfirst (Nat.lt_of_lt_of_le hlength hbetween.length_tail_le)
  rw [run_bind_of_ok hfirst']
  exact hnext value hshares' hrest hlength

theorem whileNext {test : Cursor → Option γ} {body : γ → α → Routine α}
    (htest : ∀ {c c'}, Cursor.Alike c c' → test c' = test c)
    (hbody : ∀ found value, (body found value).Steady) (value : α) :
    (whileNext test body value).Steady := by
  intro left right c c' mid result hshares hrun hlength
  simp only [Routine.whileNext] at hrun
  fun_induction whileNext.run test body value c generalizing c' with
  | case1 value c hnone =>
    cases hrun
    have hnone' := (htest (hshares.alike hlength)).trans hnone
    exact ⟨c', run_whileNext_of_eq_none hnone' body _, hshares⟩
  | case2 value c found hfound hnil =>
    cases hrun
    simp [hnil] at hlength
  | case3 value c found hfound hleft next after hround _ ih =>
    have hbetween : c.advance.Reaches after := by
      simpa only [hround] using (body found value).reaches c.advance
    have hafter : after.Reaches mid := by
      simpa only [Routine.whileNext, hrun] using (Routine.whileNext test body next).reaches after
    have hleftAfter := Nat.lt_of_lt_of_le hlength hafter.length_tail_le
    have hshared := Nat.lt_of_lt_of_le hleftAfter hbetween.ofAdvance.length_tail_le
    obtain ⟨after', hround', hshares'⟩ :=
      hbody found value (hshares.advance hshared) hround hleftAfter
    obtain ⟨mid', hrest', hlast⟩ := ih hshares' hrun
    refine ⟨mid', ?_, hlast⟩
    rw [run_whileNext_of_alike htest hfound (hshares.alike hshared), run_advance_bind,
      run_bind_of_ok hround', hrest']
  | case4 => cases hrun

end Routine.Steady

/-- From `c` on the routine fails with the diagnostic, which stands at a token before which there is
a front of the language, counted from `origin` on. It does so however the input goes on after this
token. -/
inductive Detects {α : Type} (origin : Cursor) (language : List Token → Prop)
    (routine : Routine α) (c : Cursor) (diagnostic : Diagnostic) : Prop where
  | intro {front rest : List Token} {between : Cursor} :
      origin.Takes front between → language (front ++ rest) → c.Reaches between →
        diagnostic.position = between.peek.position →
          (∀ {left right : List Token} {c' : Cursor},
            between.tokens.tail = between.peek :: left → c.Shares left right c' →
              (routine.run c').1 = .error diagnostic) →
            Detects origin language routine c diagnostic

namespace Detects

variable {α β γ : Type} {origin c mid stop : Cursor} {language : List Token → Prop}
  {diagnostic : Diagnostic} {front rest : List Token}

/-- The routine fails at the next token. -/
theorem here {routine : Routine α} (htakes : origin.Takes front c)
    (hlanguage : language (front ++ rest)) (hposition : diagnostic.position = c.peek.position)
    (hfails : ∀ c', c.Alike c' → (routine.run c').1 = .error diagnostic) :
    Detects origin language routine c diagnostic :=
  ⟨htakes, hlanguage, .refl, hposition, fun htail hshares =>
    hfails _ (hshares.alike (Cursor.Reaches.refl.length_lt htail))⟩

/-- Another routine does the same wherever the same is seen. -/
theorem congr {routine other : Routine α} (h : Detects origin language routine c diagnostic)
    (hruns : ∀ c', c.Alike c' → other.run c' = routine.run c') :
    Detects origin language other c diagnostic := by
  obtain ⟨htakes, hlanguage, hreaches, hposition, hfails⟩ := h
  refine ⟨htakes, hlanguage, hreaches, hposition, fun htail hshares => ?_⟩
  rw [hruns _ (hshares.alike (hreaches.length_lt htail))]
  exact hfails htail hshares

/-- What fails is followed by something that is not come to. -/
theorem bind {first : Routine α} (h : Detects origin language first c diagnostic)
    (next : α → Routine β) : Detects origin language (first >>= next) c diagnostic := by
  obtain ⟨htakes, hlanguage, hreaches, hposition, hfails⟩ := h
  refine ⟨htakes, hlanguage, hreaches, hposition, fun htail hshares => ?_⟩
  have hfirst := hfails htail hshares
  rw [run_bind]
  rcases hrun : first.run _ with ⟨failure | value, after⟩
  · rw [hrun] at hfirst
    exact congrArg Except.error (Except.error.inj hfirst)
  · rw [hrun] at hfirst
    cases hfirst

/-- The same where the routine that fails starts at the next token. -/
theorem bindNext {first : Routine α}
    (h : Detects origin language (Routine.advance >>= fun _ => first) c diagnostic)
    (next : α → Routine β) :
    Detects origin language (Routine.advance >>= fun _ => first >>= next) c diagnostic := by
  have hbind := h.bind next
  rwa [Routine.bind_assoc] at hbind

/-- What fails comes after something that is read. -/
theorem andThen {first : Routine α} {next : α → Routine β} {value : α} (hsteady : first.Steady)
    (hrun : first.run c = (.ok value, mid))
    (h : Detects origin language (next value) mid diagnostic) :
    Detects origin language (first >>= next) c diagnostic := by
  obtain ⟨htakes, hlanguage, hreaches, hposition, hfails⟩ := h
  have hmid : c.Reaches mid := by simpa only [hrun] using first.reaches c
  refine ⟨htakes, hlanguage, hmid.trans hreaches, hposition, fun htail hshares => ?_⟩
  obtain ⟨mid', hrun', hshares'⟩ := hsteady hshares hrun (hreaches.length_lt htail)
  rw [run_bind_of_ok hrun']
  exact hfails htail hshares'

/-- A phrase inside another one: its completions are completed. The front, if there is any, starts
with the next token. -/
theorem later {routine : Routine α} {inner : List Token → Prop} {tokens : List Token}
    (h : Detects mid inner routine c diagnostic) (htakes : origin.Takes tokens mid)
    (hcompletes : ∀ front rest, (∀ token ∈ front.head?, token = mid.peek) →
      inner (front ++ rest) → ∃ more, language (tokens ++ (front ++ more))) :
    Detects origin language routine c diagnostic := by
  obtain @⟨front, rest, between, htaken, hinner, hreaches, hposition, hfails⟩ := h
  have hhead : ∀ token ∈ front.head?, token = mid.peek := by
    cases front with
    | nil => simp
    | cons token front => simp [htaken.peek_eq]
  obtain ⟨more, hlanguage⟩ := hcompletes _ _ hhead hinner
  rw [← List.append_assoc] at hlanguage
  exact ⟨htakes.append htaken, hlanguage, hreaches, hposition, hfails⟩

/-- A phrase inside another one, where each phrase that may stand there is completed. -/
theorem within {routine : Routine α} {inner : List Token → Prop} {tokens : List Token}
    (h : Detects mid inner routine c diagnostic) (htakes : origin.Takes tokens mid)
    (hcompletes : ∀ phrase, inner phrase → ∃ more, language (tokens ++ phrase ++ more)) :
    Detects origin language routine c diagnostic := by
  refine h.later htakes fun front rest _ hinner => ?_
  obtain ⟨more, hlanguage⟩ := hcompletes _ hinner
  exact ⟨rest ++ more, by simpa using hlanguage⟩

theorem advance {next : Unit → Routine β}
    (h : Detects origin language (next ()) c.advance diagnostic) :
    Detects origin language (Routine.advance >>= next) c diagnostic :=
  andThen Steady.advance (run_advance c) h

theorem current {next : Token → Routine β}
    (h : Detects origin language (next c.current) c diagnostic) :
    Detects origin language (Routine.current >>= next) c diagnostic :=
  h.congr fun c' halike => by rw [run_current_bind, halike.current]

theorem peekKind {next : Kind → Routine β}
    (h : Detects origin language (next c.peek.kind) c diagnostic) :
    Detects origin language (Routine.peekKind >>= next) c diagnostic :=
  h.congr fun c' halike => by rw [run_peekKind_bind, halike.peek]

/-- A token of another kind than the expected one, or a failure after it. -/
theorem expectPeek {kind : Kind} {next : Unit → Routine β} {tokens : List Token}
    (htakes : origin.Takes tokens c) (hkind : kind ≠ .eof)
    (hrest : ∃ rest, language (tokens ++ rest))
    (hrun : (Routine.expectPeek kind >>= next).run c = (.error diagnostic, stop))
    (hnext : c.peek.kind = kind → origin.Takes (tokens ++ [c.peek]) c.advance →
      (next ()).run c.advance = (.error diagnostic, stop) →
        Detects origin language (next ()) c.advance diagnostic) :
    Detects origin language (Routine.expectPeek kind >>= next) c diagnostic := by
  rcases run_expectPeek_bind_eq_error_iff.mp hrun with hfirst | ⟨hpeek, hrest⟩
  · obtain ⟨hne, rfl, rfl⟩ := run_expectPeek_eq_error_iff.mp hfirst
    obtain ⟨rest, hlanguage⟩ := hrest
    refine .here htakes hlanguage rfl fun c' halike => ?_
    have hne' : c'.peek.kind ≠ kind := by rwa [halike.peek]
    rw [run_bind_of_error (run_expectPeek_of_ne hne'), halike.peek]
  · have hafter := hnext hpeek (htakes.snoc (hpeek ▸ hkind)) hrest
    exact hafter.advance.congr fun c' halike =>
      run_expectPeek_bind_of_eq (halike.peek ▸ hpeek) next

/-- A loop whose test looks at the next token only fails in one of its rounds. -/
theorem whileNext {test : Cursor → Option γ} {body : γ → α → Routine α} {value : α}
    (keeps : α → Cursor → Prop) (htest : ∀ {c c'}, Cursor.Alike c c' → test c' = test c)
    (hsteady : ∀ found value, (body found value).Steady)
    (hround : ∀ {found before after start last}, keeps before start → test start = some found →
      start.tokens ≠ [] → (body found before).run start.advance = (.ok after, last) →
        keeps after last)
    (hbody : ∀ {found before start}, keeps before start → test start = some found →
      (body found before).run start.advance = (.error diagnostic, stop) →
        Detects origin language (Routine.advance >>= fun _ => body found before) start diagnostic)
    (hstart : keeps value c)
    (hrun : (Routine.whileNext test body value).run c = (.error diagnostic, stop)) :
    Detects origin language (Routine.whileNext test body value) c diagnostic := by
  simp only [Routine.whileNext] at hrun
  fun_induction whileNext.run test body value c with
  | case1 => cases hrun
  | case2 => cases hrun
  | case3 value c found hfound hleft next after hfirst _ ih =>
    have hnext := ih (hround hstart hfound hleft hfirst) hrun
    have hmore : Detects origin language (body found value >>= Routine.whileNext test body)
        c.advance diagnostic := andThen (hsteady found value) hfirst hnext
    exact hmore.advance.congr fun c' halike =>
      run_whileNext_of_alike htest hfound halike body value
  | case4 value c found hfound hleft failure after hfirst =>
    cases hrun
    have hmore := (hbody hstart hfound hfirst).bindNext (Routine.whileNext test body)
    exact hmore.congr fun c' halike => run_whileNext_of_alike htest hfound halike body value

end Detects

end LetScript
