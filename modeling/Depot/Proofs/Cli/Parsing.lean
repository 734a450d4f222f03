import Depot.Cli.Session
import Mathlib.Tactic.Common

/-!
How a command line comes to the path of its settings file. Every command takes that path as an option
and from the environment; where no option gives one, the environment's counts and changes nothing else.
-/

namespace Depot.Cli

/-- A command takes the path of the settings file, and so do those below it. -/
inductive TakesPath : Grammar → Prop
  | intro {g : Grammar} (rule : g.ruleOf "config" = .notEmpty)
    (children : ∀ c ∈ g.children, TakesPath c) : TakesPath g

theorem TakesPath.rule {g : Grammar} (h : TakesPath g) : g.ruleOf "config" = .notEmpty := by
  cases h with
  | intro rule _ => exact rule

theorem TakesPath.child {g c : Grammar} {w : String} (h : TakesPath g)
    (hc : g.child? w = some (.command c)) : TakesPath c := by
  cases h with
  | intro _ children =>
    apply children
    unfold Grammar.child? at hc
    split at hc
    · next hfind =>
      cases hc
      exact List.mem_of_find?_eq_some hfind
    · split_ifs at hc
      cases hc

theorem takesPath_leaf {name : String} {options : List OptionRule} {operands : List Operand}
    (rule : (leaf name options operands).ruleOf "config" = .notEmpty) :
    TakesPath (leaf name options operands) :=
  .intro rule fun _ hc => absurd hc List.not_mem_nil

theorem takesPath_grammar : TakesPath grammar := by
  refine .intro (by decide) ?_
  simp only [grammar, Grammar.children, List.forall_mem_cons]
  refine ⟨takesPath_leaf (by decide), takesPath_leaf (by decide), takesPath_leaf (by decide),
    takesPath_leaf (by decide), takesPath_leaf (by decide), takesPath_leaf (by decide),
    .intro (by decide) ?_, by simp⟩
  simp only [Grammar.children, List.forall_mem_cons]
  exact ⟨takesPath_leaf (by decide), takesPath_leaf (by decide), takesPath_leaf (by decide), by simp⟩

/-- Words that are read in two steps are read by both. -/
theorem of_bind_eq_ok {α β : Type} {x : Except UsageError α} {f : α → Except UsageError β} {b : β}
    (h : x >>= f = .ok b) : ∃ a, x = .ok a ∧ f a = .ok b := by
  cases x with
  | error e => cases h
  | ok a => exact ⟨a, rfl, h⟩

namespace Level

variable {p : String} {g : Grammar} {lv lv' : Level} {ws : List String} {levels : List Level}

/-- A level to which the environment has given the path of the settings file. -/
def named (p : String) (lv : Level) : Level := { lv with ambient := lv.ambient ++ [("config", p)] }

/-- A level on which nobody has given the path of the settings file. -/
def IsUnnamed (lv : Level) : Prop := assoc? "config" lv.values = none ∧ lv.ambient = []

instance (lv : Level) : Decidable lv.IsUnnamed := inferInstanceAs (Decidable (_ ∧ _))

theorem addAmbient_config (hp : p ≠ "") (hrule : g.ruleOf "config" = .notEmpty)
    (hnone : assoc? "config" lv.values = none) :
    lv.addAmbient g [("config", p)] = .ok (lv.named p) := by
  have haccepts : ValueRule.notEmpty.accepts p = true := by simpa [ValueRule.accepts] using hp
  simp only [addAmbient, hnone, hrule, haccepts]
  rfl

theorem finish_config (hp : p ≠ "") (hrule : g.ruleOf "config" = .notEmpty) {hasChild : Bool}
    (h : lv.finish [] g hasChild = .ok lv') (hnone : assoc? "config" lv'.values = none) :
    lv.finish [("config", p)] g hasChild = .ok (lv'.named p) := by
  unfold finish at h ⊢
  obtain ⟨lv₁, hsettle, h⟩ := of_bind_eq_ok h
  obtain ⟨lv₂, hambient, h⟩ := of_bind_eq_ok h
  obtain rfl : lv₁ = lv₂ := Except.ok.inj hambient
  split_ifs at h with hchild hgiven
  cases h
  rw [hsettle]
  change lv'.addAmbient g [("config", p)] >>= _ = _
  rw [addAmbient_config hp hrule hnone]
  change (if _ then _ else if _ then _ else _) = _
  rw [if_neg hchild]
  exact if_pos hgiven

/-- The environment's path is read on every level of a command line that gives none. -/
theorem read_config (hp : p ≠ "") (hg : TakesPath g) (h : read [] ws g lv = .ok levels)
    (hnone : ∀ l ∈ levels, l.IsUnnamed) :
    read [("config", p)] ws g lv = .ok (levels.map (named p)) := by
  induction ws generalizing g lv levels with
  | nil =>
    unfold read at h ⊢
    obtain ⟨lv', hfinish, h⟩ := of_bind_eq_ok h
    cases h
    rw [finish_config hp hg.rule hfinish (hnone lv' (by simp)).1]
    rfl
  | cons w ws ih =>
    unfold read at h ⊢
    by_cases htrail : lv.isTrailing = true
    · rw [if_pos htrail] at h ⊢
      obtain ⟨lv₁, hword, h⟩ := of_bind_eq_ok h
      rw [hword]
      exact ih hg h hnone
    · rw [if_neg htrail] at h ⊢
      cases hchild : (if lv.isOpen then none else g.child? w) with
      | some child =>
        have hsome : g.child? w = some child := by
          split_ifs at hchild
          exact hchild
        rw [hchild] at h
        cases child with
        | help => cases h
        | command c =>
          obtain ⟨below, hbelow, h⟩ := of_bind_eq_ok h
          obtain ⟨lv', hfinish, h⟩ := of_bind_eq_ok h
          cases h
          obtain ⟨hself, hrest⟩ := List.forall_mem_cons.mp hnone
          simp only [ih (hg.child hsome) hbelow hrest, finish_config hp hg.rule hfinish hself.1]
          rfl
      | none =>
        rw [hchild] at h
        by_cases hdash : w = "--"
        · simp only [if_pos hdash] at h ⊢
          exact ih hg h hnone
        · simp only [if_neg hdash] at h ⊢
          obtain ⟨lv₁, hword, h⟩ := of_bind_eq_ok h
          rw [hword]
          exact ih hg h hnone

theorem request_named (p : String) (lv : Level) (below : Option Level) :
    (lv.named p).request (below.map (named p)) = lv.request below := by
  cases below <;> rfl

end Level

namespace Invocation

variable {p : String} {levels : List Level} {i : Invocation} {words : List String}

theorem common?_named {name : String} (hne : name ≠ "config") (p : String) (levels : List Level) :
    common? (levels.map (Level.named p)) name = common? levels name := by
  have hambient : ∀ pairs : List (String × String),
      assoc? name (pairs ++ [("config", p)]) = assoc? name pairs := by
    intro pairs
    induction pairs with
    | nil => simp [assoc?, hne]
    | cons pair pairs ih => rw [List.cons_append, assoc?, assoc?, ih]
  have hlevel : (fun lv : Level => assoc? name lv.ambient) ∘ Level.named p =
      fun lv => assoc? name lv.ambient := funext fun lv => hambient lv.ambient
  unfold common?
  rw [← List.map_reverse, List.findSome?_map, List.findSome?_map, hlevel]
  rfl

theorem common?_config (hnone : ∀ l ∈ levels, l.IsUnnamed) (hne : levels ≠ []) :
    common? (levels.map (Level.named p)) "config" = some p := by
  have hvalues : levels.reverse.findSome? ((fun lv => lv.value? "config") ∘ Level.named p) = none := by
    rw [List.findSome?_eq_none_iff]
    intro l hl
    obtain ⟨hvalue, -⟩ := hnone l (List.mem_reverse.mp hl)
    change (assoc? "config" l.values).bind List.head? = none
    rw [hvalue]
    rfl
  unfold common?
  rw [← List.map_reverse, List.findSome?_map, hvalues]
  change (levels.map (Level.named p)).findSome? (fun lv => assoc? "config" lv.ambient) = some p
  obtain ⟨first, rest, rfl⟩ := List.exists_cons_of_ne_nil hne
  obtain ⟨-, hambient⟩ := hnone first List.mem_cons_self
  simp [Level.named, hambient, assoc?]

/-- A command line that does not say where its settings are asks for the same without and with an
environment that does. -/
theorem parse_config (hp : p ≠ "")
    (hread : Level.read [] words grammar { path := [programName] } = .ok levels)
    (hnone : ∀ l ∈ levels, l.IsUnnamed) (h : ofLevels levels = .ok i) :
    parse (some p) words = .ok { i with settings := some p } := by
  have hnamed := Level.read_config hp takesPath_grammar hread hnone
  unfold parse
  change (Level.read [("config", p)] words grammar { path := [programName] } >>= _) = _
  rw [hnamed]
  change ofLevels (levels.map (Level.named p)) = _
  have hne : levels ≠ [] := by
    rintro rfl
    cases h
  unfold ofLevels at h ⊢
  have hrequest : (((levels.map (Level.named p))[1]?).bind fun lv =>
      lv.request (levels.map (Level.named p))[2]?) =
      (levels[1]?).bind fun lv => lv.request levels[2]? := by
    rw [List.getElem?_map, List.getElem?_map]
    cases levels[1]? with
    | none => rfl
    | some lv => exact Level.request_named p lv _
  rw [hrequest, common?_config hnone hne, common?_named (by decide), ← List.map_reverse,
    List.findSome?_map]
  cases hasked : (levels[1]?).bind fun lv => lv.request levels[2]? with
  | none =>
    rw [hasked] at h
    cases h
  | some request =>
    rw [hasked] at h
    cases h
    rfl

end Invocation

end Depot.Cli
