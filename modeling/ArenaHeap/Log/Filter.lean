import ArenaHeap.Log.Directive

namespace ArenaHeap.Log

/-!
# Filters

A filter is a list of directives. Of those that fit an event one decides on it: the one with the
longest target, of these the one with the greatest field, and of two that agree in both the later
one. An event that no directive fits is not admitted.

Written out, directives are separated by commas. The main statements are `fits_of_decisive?`,
that a decision is made by a directive for the event, and `decisive?_eq_none_iff`, that there is
a decision whenever one directive is.
-/

/-- Rules that say which events are written. -/
abbrev Filter := List Directive

namespace Filter

/-- Reads a filter. Without any directive only errors are admitted. -/
def parse? (text : String) : Option Filter := do
  let pieces := (text.splitOn ",").filter (!·.isEmpty)
  let directives ← pieces.mapM Directive.parse?
  return if directives.isEmpty then [{ least := some .error }] else directives

/-- The one of two directives for an event that decides, where the first may be missing. -/
def prevailing (best : Option Directive) (d : Directive) : Option Directive :=
  match best with
  | none => some d
  | some other => if d.prevails other then some d else some other

/-- The directive that decides on an event. -/
def decisive? (f : Filter) (e : Event) : Option Directive :=
  (f.filter (·.fits e)).foldl prevailing none

/-- Whether an event is written. -/
def admits (f : Filter) (e : Event) : Bool :=
  match (f.decisive? e).bind (·.least) with
  | some least => e.level.breadth ≤ least.breadth
  | none => false

/-! ### Decisions -/

/-- The directive that prevails among some is one of them. -/
theorem mem_of_foldl_prevailing {d : Directive} {ds : List Directive} {best : Option Directive}
    (h : ds.foldl prevailing best = some d) : d ∈ ds ∨ best = some d := by
  induction ds generalizing best with
  | nil => exact .inr h
  | cons x xs ih =>
    rcases ih h with mem | last
    · exact .inl (List.mem_cons_of_mem x mem)
    · cases best with
      | none => exact .inl (Option.some.inj last ▸ List.mem_cons_self)
      | some other =>
        simp only [prevailing] at last
        split at last
        · exact .inl (Option.some.inj last ▸ List.mem_cons_self)
        · exact .inr last

/-- One of some directives prevails if there are any. -/
theorem isSome_foldl_prevailing (ds : List Directive) (best : Option Directive) :
    (ds.foldl prevailing best).isSome = (best.isSome || !ds.isEmpty) := by
  induction ds generalizing best with
  | nil => simp
  | cons x xs ih =>
    rw [List.foldl_cons, ih]
    cases best with
    | none => simp [prevailing]
    | some other => simp only [prevailing]; split <;> simp

/-- A directive that decides is a rule of the filter and for the event. -/
theorem fits_of_decisive? {f : Filter} {e : Event} {d : Directive}
    (h : f.decisive? e = some d) : d ∈ f ∧ d.fits e = true := by
  rcases mem_of_foldl_prevailing h with mem | none
  · exact List.mem_filter.1 mem
  · exact absurd none (by simp)

/-- An event is left undecided when no directive is for it, and only then. -/
theorem decisive?_eq_none_iff {f : Filter} {e : Event} :
    f.decisive? e = none ↔ ∀ d ∈ f, d.fits e = false := by
  rw [← Option.not_isSome_iff_eq_none, decisive?, isSome_foldl_prevailing]
  simp

end Filter

end ArenaHeap.Log
