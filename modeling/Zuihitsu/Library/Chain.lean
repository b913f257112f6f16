/-
# Chains of successors

Places that lead on to one another, each to at most one other, and the places
where a chain may rightly end. The rules say what redirecting some of the places
does to the chains of all the others: a chain that met none of them is as it was,
and a redirection to a place that leads back makes a cycle, whose chains never end.
-/

import Mathlib.Logic.Relation

namespace Zuihitsu.Library

open Relation

/-- A place leads on, in any number of steps, to a place where its chain may end. -/
def Ends {α : Type} (step : α → α → Prop) (final : α → Prop) (place : α) : Prop :=
  ∃ last, ReflTransGen step place last ∧ final last

section Chains

variable {α : Type} {step step' : α → α → Prop} {final final' changed : α → Prop}
variable {place other last : α}

theorem ends_of_final (here : final place) : Ends step final place := ⟨place, .refl, here⟩

theorem Ends.head (leads : step place other) (ends : Ends step final other) :
    Ends step final place := by
  obtain ⟨last, rest, here⟩ := ends
  exact ⟨last, .head leads rest, here⟩

/-- A chain ends where it stands, or one step on. -/
theorem ends_iff :
    Ends step final place ↔ final place ∨ ∃ next, step place next ∧ Ends step final next := by
  constructor
  · rintro ⟨last, chain, here⟩
    rcases chain.cases_head with rfl | ⟨next, leads, rest⟩
    · exact .inl here
    · exact .inr ⟨next, leads, last, rest, here⟩
  · rintro (here | ⟨next, leads, ends⟩)
    · exact ends_of_final here
    · exact ends.head leads

/-- A chain ends after a change when it ended before, places that did not change lead and
end as they did, and the changed ones it meets have chains that end. -/
theorem Ends.change (ends : Ends step final place)
    (leads : ∀ one next, ¬changed one → step one next → step' one next)
    (stays : ∀ one, ¬changed one → final one → final' one)
    (changedEnd : ∀ one, ReflTransGen step place one → changed one → Ends step' final' one) :
    Ends step' final' place := by
  obtain ⟨last, chain, here⟩ := ends
  induction chain using ReflTransGen.head_induction_on with
  | refl =>
    by_cases touched : changed last
    · exact changedEnd last .refl touched
    · exact ends_of_final (stays last touched here)
  | @head one next first rest ih =>
    by_cases touched : changed one
    · exact changedEnd one .refl touched
    · exact (ih fun two chain => changedEnd two (.head first chain)).head (leads one next touched first)

/-- A chain that meets a changed place still leads to the first one it meets. -/
theorem exists_changed (leads : ∀ one next, ¬changed one → step one next → step' one next)
    (chain : ReflTransGen step place last) (touched : changed last) :
    ∃ one, changed one ∧ ReflTransGen step' place one := by
  induction chain using ReflTransGen.head_induction_on with
  | refl => exact ⟨last, touched, .refl⟩
  | @head one next first rest ih =>
    by_cases here : changed one
    · exact ⟨one, here, .refl⟩
    · obtain ⟨two, found, chain⟩ := ih
      exact ⟨two, found, .head (leads one next here first) chain⟩

/-- Where each place leads to one other at most, everything on a cycle leads back to each
of its places. -/
theorem leads_back (unique : ∀ one two three, step one two → step one three → two = three)
    (leads : step place other) (back : ReflTransGen step other place)
    (chain : ReflTransGen step place last) : ReflTransGen step last place := by
  induction chain with
  | refl => exact .refl
  | @tail one next _ onward ih =>
    rcases ih.cases_head with rfl | ⟨two, leads', rest⟩
    · exact unique _ _ _ leads onward ▸ back
    · exact unique _ _ _ leads' onward ▸ rest

/-- A chain on a cycle does not end, unless at the place itself. -/
theorem not_ends_of_cycle (unique : ∀ one two three, step one two → step one three → two = three)
    (settles : ∀ one next, final one → step one next → next = one) (leads : step place other)
    (back : ReflTransGen step other place) (open' : ¬final place) : ¬Ends step final place := by
  rintro ⟨last, chain, here⟩
  -- a final place leads nowhere else, and this one leads back
  have stuck : ∀ one, ReflTransGen step last one → one = last := by
    intro one onward
    induction onward with
    | refl => rfl
    | tail _ next ih =>
      subst ih
      exact settles _ _ here next
  have returned := stuck place (leads_back unique leads back chain)
  exact open' (returned ▸ here)

end Chains

end Zuihitsu.Library
