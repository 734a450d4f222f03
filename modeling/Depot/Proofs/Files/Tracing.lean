import Depot.Proofs.Files.Leading
import Mathlib.Data.List.Induction

/-!
Ways that are traced step by step. A way has no choice of its next step, and the number of links that
it may still follow only decides whether it gets stuck. Two trees that look the same wherever a way
passes have that way in common.
-/

namespace Depot.Files

namespace Way

variable {root root' : Node} {top : Place} {w w' v : Way}

theorem not_step_nil {links : Nat} {place : Place} : ¬ Step root ⟨links, place, []⟩ w :=
  fun h => h.hops_ne_nil rfl

theorem Steps.eq_of_nil {links : Nat} {place : Place} (h : Steps root ⟨links, place, []⟩ w) :
    w = ⟨links, place, []⟩ := by
  rcases Relation.ReflTransGen.cases_head h with heq | ⟨v, hstep, -⟩
  · exact heq.symm
  · exact absurd hstep not_step_nil

theorem Steps.links_le (h : Steps root w w') : w'.links ≤ w.links := by
  induction h with
  | refl => exact Nat.le_refl _
  | tail _ hstep ih => exact Nat.le_trans (Step.links_le hstep) ih

/-- Each step looks into a directory. -/
theorem Step.isDirAt (h : Step root w w') : root.IsDirAt w.place := by
  cases h with
  | stay h => exact h
  | up h => exact h
  | down _ h _ => exact .of_append (by simp) h
  | jump _ h => exact .of_append (by simp) h

/-- A way does not get on from a node that is no directory. -/
theorem Steps.hops_eq_nil {links links' : Nat} {place place' : Place} {hs : List Hop} {x : Node}
    (hx : root.get? place = some x) (hdir : x.isDir = false)
    (h : Steps root ⟨links, place, hs⟩ ⟨links', place', []⟩) : hs = [] ∧ place' = place := by
  rcases Relation.ReflTransGen.cases_head h with heq | ⟨v, hstep, -⟩
  · cases heq
    exact ⟨rfl, rfl⟩
  · obtain ⟨mode, es, hes⟩ := hstep.isDirAt
    rw [hx] at hes
    cases hes
    cases hdir

/-- The place and the hops of a way decide its next step, whatever the number of links. -/
theorem Step.unique {links links' : Nat} {place : Place} {hs : List Hop}
    (h : Step root ⟨links, place, hs⟩ w) (h' : Step root ⟨links', place, hs⟩ w') :
    w'.place = w.place ∧ w'.hops = w.hops ∧ w'.links + links = links' + w.links := by
  cases h with
  | stay h =>
    cases h' with
    | stay h' => exact ⟨rfl, rfl, rfl⟩
  | up h =>
    cases h' with
    | up h' => exact ⟨rfl, rfl, rfl⟩
  | down hn h hlink =>
    cases h' with
    | down hn' h' hlink' => exact ⟨rfl, rfl, rfl⟩
    | jump hn' h' => exact absurd (Option.some.inj (h.symm.trans h')) (hlink _)
  | jump hn h =>
    cases h' with
    | down hn' h' hlink' => exact absurd (Option.some.inj (h'.symm.trans h)) (hlink' _)
    | jump hn' h' =>
      cases Option.some.inj (h.symm.trans h')
      exact ⟨rfl, rfl, by dsimp only; omega⟩

/-- Two ways that start alike and come to an end get to the same place. -/
theorem Steps.end_unique {links links' last last' : Nat} {place here here' : Place} {hs : List Hop}
    (h : Steps root ⟨links, place, hs⟩ ⟨last, here, []⟩)
    (h' : Steps root ⟨links', place, hs⟩ ⟨last', here', []⟩) : here' = here := by
  generalize hw : (⟨links, place, hs⟩ : Way) = w at h
  induction h using Relation.ReflTransGen.head_induction_on generalizing links links' place hs with
  | refl =>
    cases hw
    cases h'.eq_of_nil
    rfl
  | @head a c hstep _ ih =>
    subst hw
    rcases Relation.ReflTransGen.cases_head h' with heq | ⟨v, hstep', hrest⟩
    · cases heq
      exact absurd hstep not_step_nil
    · obtain ⟨hplace, hhops, -⟩ := hstep.unique hstep'
      obtain ⟨l, p, hs'⟩ := v
      dsimp only at hplace hhops
      subst hplace hhops
      exact ih hrest rfl

/-- A step does not look at the hops behind the next one. -/
theorem Step.of_append {more : List Hop} (hne : w.hops ≠ []) (h : Step root (w.append more) v) :
    ∃ w', Step root w w' ∧ v = w'.append more := by
  obtain ⟨links, place, hs⟩ := w
  obtain ⟨hop, hs, rfl⟩ := List.exists_cons_of_ne_nil hne
  simp only [Way.append, List.cons_append] at h
  cases h with
  | stay h => exact ⟨_, .stay h, rfl⟩
  | up h => exact ⟨_, .up h, rfl⟩
  | down hn h hlink => exact ⟨_, .down hn h hlink, rfl⟩
  | jump hn h =>
    refine ⟨_, .jump hn h, ?_⟩
    simp only [Way.append, List.append_assoc]

/-- A way through two lists of hops comes to the end of the first. -/
theorem Steps.split {links last : Nat} {place here : Place} {hs more : List Hop}
    (h : Steps root ⟨links, place, hs ++ more⟩ ⟨last, here, []⟩) :
    ∃ links' place', Steps root ⟨links, place, hs⟩ ⟨links', place', []⟩ ∧
      Steps root ⟨links', place', more⟩ ⟨last, here, []⟩ := by
  generalize hw : (⟨links, place, hs ++ more⟩ : Way) = w at h
  induction h using Relation.ReflTransGen.head_induction_on generalizing links place hs with
  | refl =>
    obtain ⟨rfl, rfl⟩ := List.append_eq_nil_iff.mp (congrArg Way.hops hw)
    cases hw
    exact ⟨_, _, .refl, .refl⟩
  | @head a c hstep hrest ih =>
    subst hw
    by_cases hnil : hs = []
    · subst hnil
      exact ⟨links, place, .refl, .head hstep hrest⟩
    · have happ : Step root ((⟨links, place, hs⟩ : Way).append more) c := hstep
      obtain ⟨⟨l, p, hs'⟩, hstep', hc⟩ := Step.of_append hnil happ
      obtain ⟨links', place', hfirst, hsecond⟩ := @ih l p hs' hc.symm
      exact ⟨links', place', .head hstep' hfirst, hsecond⟩

theorem Step.addLinks (h : Step root w w') (more : Nat) :
    Step root { w with links := w.links + more } { w' with links := w'.links + more } := by
  cases h with
  | stay h => exact .stay h
  | up h => exact .up h
  | down hn h hlink => exact .down hn h hlink
  | @jump links place hs n target hn h =>
    have hjump : Step root ⟨links + more + 1, place, .name n :: hs⟩ _ := .jump hn h
    rwa [Nat.add_right_comm] at hjump

/-- A way does not need the links that are left at its end. -/
theorem Steps.addLinks (h : Steps root w w') (more : Nat) :
    Steps root { w with links := w.links + more } { w' with links := w'.links + more } := by
  induction h with
  | refl => exact .refl
  | tail _ hstep ih => exact ih.tail (hstep.addLinks more)

/-- A way gets nowhere but through its next step. -/
theorem Steps.eq_or (h : Steps root w v) (hstep : Step root w w') : v = w ∨ Steps root w' v := by
  rcases Relation.ReflTransGen.cases_head h with heq | ⟨u, hstep', hrest⟩
  · exact .inl heq.symm
  · obtain ⟨hplace, hhops, hlinks⟩ := hstep.unique hstep'
    have hu : u = w' := by
      obtain ⟨l, p, hs⟩ := u
      obtain ⟨l', p', hs'⟩ := w'
      dsimp only at hplace hhops hlinks
      rw [hplace, hhops, Nat.add_right_cancel (hlinks.trans (Nat.add_comm _ _))]
    exact .inr (hu ▸ hrest)

/-- A way never gets to a directory or below it. -/
def Avoids (root : Node) (top : Place) (w : Way) : Prop := ∀ v, Steps root w v → ¬ top <+: v.place

namespace Avoids

theorem here (h : Avoids root top w) : ¬ top <+: w.place := h w .refl

theorem step (h : Avoids root top w) (hstep : Step root w w') : Avoids root top w' :=
  fun v hv => h v (.head hstep hv)

theorem of_nil {links : Nat} {place : Place} (h : ¬ top <+: place) :
    Avoids root top ⟨links, place, []⟩ := fun v hv => by
  rw [hv.eq_of_nil]
  exact h

/-- What the next step leads to decides the rest. -/
theorem head (h : ¬ top <+: w.place) (hstep : Step root w w') (h' : Avoids root top w') :
    Avoids root top w := by
  intro v hv
  rcases hv.eq_or hstep with rfl | hrest
  · exact h
  · exact h' v hrest

end Avoids

/-- A step that keeps away from a directory is one in every tree that looks the same elsewhere. -/
theorem Step.frame (hsame : root.SameOff top root') (hdir : root.IsDirAt top)
    (hw : ¬ top <+: w.place) (hw' : ¬ top <+: w'.place) (h : Step root w w') : Step root' w w' := by
  cases h with
  | stay h => exact .stay ((hsame.isDirAt hw).mp h)
  | up h => exact .up ((hsame.isDirAt hw).mp h)
  | @down links place hs n child hn h hlink =>
    have hlook := hsame _ hw'
    rw [Node.look, h] at hlook
    obtain ⟨child', hc, hface⟩ := Option.map_eq_some_iff.mp hlook.symm
    refine .down hn hc fun target ht => ?_
    subst ht
    rw [← Node.look_eq_some_iff rfl, ← hsame _ hw', Node.look_eq_some_iff rfl, h] at hc
    exact hlink target (Option.some.inj hc)
  | @jump links place hs n target hn h =>
    have hoff : ¬ top <+: place ++ [n] := by
      intro hp
      rcases List.prefix_concat_iff.mp hp with heq | hprefix
      · obtain ⟨mode, es, hx⟩ := hdir
        rw [heq, h] at hx
        cases hx
      · exact hw hprefix
    rw [← Node.look_eq_some_iff rfl, hsame _ hoff, Node.look_eq_some_iff rfl] at h
    exact .jump hn h

/-- A way that keeps away from a directory is one in every tree that looks the same elsewhere. -/
theorem Steps.frame (hsame : root.SameOff top root') (hdir : root.IsDirAt top)
    (hw : Avoids root top w) (h : Steps root w w') : Steps root' w w' := by
  induction h with
  | refl => exact .refl
  | tail hfirst hstep ih =>
    exact ih.tail (hstep.frame hsame hdir (hw _ hfirst) (hw _ (hfirst.tail hstep)))

/-- A step cannot lead below a directory but through it. -/
theorem Step.eq_of_prefix (h : Step root w w') (hw : ¬ top <+: w.place) (hw' : top <+: w'.place) :
    w'.place = top := by
  cases h with
  | stay => exact absurd hw' hw
  | up => exact absurd (hw'.trans (List.dropLast_prefix _)) hw
  | down => exact ((List.prefix_concat_iff.mp hw').resolve_right hw).symm
  | @jump links place hs n target hn h =>
    dsimp only at hw' ⊢
    split_ifs at hw' ⊢
    · exact (List.prefix_nil.mp hw').symm
    · exact absurd hw' hw

/-- A way keeps away from a directory whatever is in it. -/
theorem Avoids.frame (hsame : root.SameOff top root') (hdir : root.IsDirAt top)
    (hdir' : root'.IsDirAt top) (h : Avoids root top w) : Avoids root' top w := by
  have hback : ∀ v, Steps root' w v → Steps root w v := by
    intro v hv
    induction hv with
    | refl => exact .refl
    | @tail u v _ hstep ih =>
      have hu := h _ ih
      by_cases hv : top <+: v.place
      · -- The same step gets to the directory in the other tree.
        have heq := hstep.eq_of_prefix hu hv
        cases hstep with
        | stay => exact absurd hv hu
        | up => exact absurd (hv.trans (List.dropLast_prefix _)) hu
        | @down links place hs n child hn hx hlink =>
          obtain ⟨mode, es, htop⟩ := hdir
          have hinto : Step root ⟨links, place, .name n :: hs⟩ ⟨links, place ++ [n], hs⟩ :=
            .down hn (heq ▸ htop) (by simp)
          exact absurd hv (h _ (ih.tail hinto))
        | @jump links place hs n target hn hx =>
          dsimp only at hv hu
          split_ifs at hv
          · exact absurd (List.prefix_nil.mp hv ▸ List.nil_prefix) hu
          · exact absurd hv hu
      · exact ih.tail (hstep.frame hsame.symm hdir' hu hv)
  exact fun v hv => h v (hback v hv)

end Way

/-- Names lead from one place to another, through links. -/
def Leads (root : Node) (start names : Place) (here : Place) : Prop :=
  ∃ links last, Way.Steps root ⟨links, start, names.map .name⟩ ⟨last, here, []⟩

namespace Leads

variable {root : Node} {start names here here' : Place} {n : Name}

theorem nil : Leads root start [] start := ⟨0, 0, .refl⟩

theorem eq_of_nil (h : Leads root start [] here) : here = start := by
  obtain ⟨links, last, h⟩ := h
  cases h.eq_of_nil
  rfl

theorem unique (h : Leads root start names here) (h' : Leads root start names here') :
    here' = here := by
  obtain ⟨links, last, h⟩ := h
  obtain ⟨links', last', h'⟩ := h'
  exact h.end_unique h'

theorem concat (h : Leads root start names here) (h' : Leads root here [n] here') :
    Leads root start (names ++ [n]) here' := by
  obtain ⟨links, last, h⟩ := h
  obtain ⟨links', last', h'⟩ := h'
  have hfirst := (h.addLinks links').append [.name n]
  have hsecond := h'.addLinks last
  refine ⟨links + links', last' + last, ?_⟩
  rw [List.map_append]
  refine hfirst.trans ?_
  rw [Nat.add_comm last links']
  exact hsecond

theorem of_concat (h : Leads root start (names ++ [n]) here') :
    ∃ here, Leads root start names here ∧ Leads root here [n] here' := by
  obtain ⟨links, last, h⟩ := h
  rw [List.map_append] at h
  obtain ⟨links', here, hfirst, hsecond⟩ := h.split
  exact ⟨here, ⟨links, links', hfirst⟩, ⟨links', last, hsecond⟩⟩

/-- One name leads to its entry, or through a link. -/
theorem singleton_cases (h : Leads root start [n] here) :
    here = start ++ [n] ∨ ∃ target, root.get? (start ++ [n]) = some (.link target) := by
  obtain ⟨links, last, h⟩ := h
  rcases Relation.ReflTransGen.cases_head h with heq | ⟨v, hstep, hrest⟩
  · cases heq
  · cases hstep with
    | down hn hx hlink =>
      cases Way.Steps.eq_of_nil hrest
      exact .inl rfl
    | jump hn hx => exact .inr ⟨_, hx⟩

/-- Names of directories lead straight down. -/
theorem eq_append (h : Leads root start names here) (hdir : root.IsDirAt (start ++ names)) :
    here = start ++ names := by
  induction names using List.reverseRecOn generalizing here with
  | nil => rw [h.eq_of_nil, List.append_nil]
  | append_singleton names n ih =>
    obtain ⟨mid, hmid, hlast⟩ := h.of_concat
    rw [← List.append_assoc] at hdir
    obtain rfl := ih hmid (hdir.of_prefix (List.prefix_append _ _))
    rcases hlast.singleton_cases with heq | ⟨target, ht⟩
    · rw [heq, List.append_assoc]
    · obtain ⟨mode, es, hx⟩ := hdir
      rw [ht] at hx
      cases hx

end Leads

end Depot.Files
