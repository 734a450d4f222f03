import Depot.Proofs.Checkout.Progress

/-!
What holds at all times of a system. A step of one checkout keeps the world, the archives and the
memos as they should be, and takes nothing from another checkout.
-/

namespace Depot

open Files Fingerprint

namespace System

variable {site : Site} {seat : Seat} {s s' s₀ : System}

/-- What holds at all times: for the world, the archives, the memos and each checkout. No scratch
directory belongs to two checkouts. -/
structure IsSound (site : Site) (seat : Seat) (s : System) : Prop where
  world : s.world.IsSound site seat
  archives : ∀ n x, s.world.disk.root.get? (seat.archive n) = some x → IsArchive n x
  builders : ∀ b, (s.builder b).IsSound seat s.world
  checkouts : ∀ me b p, s.checkout me = some (b, p) → p.IsSound site seat s.world
  apart : ∀ me other b c p q, s.checkout me = some (b, p) → s.checkout other = some (c, q) →
    me ≠ other → ∀ path ∈ p.scratches, path ∉ q.scratches

theorem of_update {checkout : Nat → Option (Nat × Phase)} {me other b c : Nat} {p q : Phase}
    (h : Function.update checkout me (some (b, p)) other = some (c, q)) :
    other = me ∧ q = p ∨ other ≠ me ∧ checkout other = some (c, q) := by
  by_cases hne : other = me
  · subst hne
    rw [Function.update_self] at h
    obtain ⟨-, rfl⟩ := Prod.mk.inj (Option.some.inj h)
    exact .inl ⟨rfl, rfl⟩
  · rw [Function.update_of_ne hne] at h
    exact .inr ⟨hne, h⟩

namespace IsSound

/-- What a checkout has, or makes, is not what another one has. -/
theorem notMem_of_advances (hs : s.IsSound site seat) {me other b c : Nat} {p p' q : Phase}
    {w' : World} {b' : Builder} (h : s.checkout me = some (b, p))
    (ha : Phase.Advances site seat s.world w' b' p p') (hother : s.checkout other = some (c, q))
    (hne : me ≠ other) : ∀ path ∈ q.scratches, path ∉ p.scratches ++ p'.scratches := by
  have hapart : ∀ path ∈ q.scratches, path ∉ p.scratches :=
    hs.apart other me c b q p hother h (Ne.symm hne)
  intro path hpath hmem
  rcases List.mem_append.mp hmem with hmem | hmem
  · exact hapart path hpath hmem
  · rcases ha.fresh path hmem with hmem | ⟨σ, hσ, hnew⟩
    · exact hapart path hpath hmem
    · obtain ⟨τ, hm⟩ := (hs.checkouts other c q hother).made path hpath
      have heq := hs.world.seat.eq_of_path_eq (hσ.symm.trans hm.path)
      have hold := hm.number
      rw [← heq] at hold
      omega

theorem archives_of_keeps (hs : s.IsSound site seat) {owned : List Bytes} {w' : World}
    (h : s.world.Keeps site seat owned w') :
    ∀ n x, w'.disk.root.get? (seat.archive n) = some x → IsArchive n x := by
  intro n x hx
  rcases h.published n x hx with hold | hnew
  · exact hs.archives n x hold
  · exact hnew

theorem advance (hs : s.IsSound site seat) {me b : Nat} {p p' : Phase} {w' : World} {b' : Builder}
    (h : s.checkout me = some (b, p)) (ha : Phase.Advances site seat s.world w' b' p p') :
    IsSound site seat
      ⟨w', Function.update s.builder b b', Function.update s.checkout me (some (b, p'))⟩ where
  world := ha.keeps.sound
  archives := hs.archives_of_keeps ha.keeps
  builders c := by
    by_cases hc : c = b
    · subst hc
      simpa using ha.builder
    · simpa [Function.update_of_ne hc] using (hs.builders c).keeps ha.keeps
  checkouts other c q hother := by
    rcases of_update hother with ⟨-, rfl⟩ | ⟨hne, hother⟩
    · exact ha.phase
    · exact (hs.checkouts other c q hother).keeps ha.keeps
        (hs.notMem_of_advances h ha hother hne.symm)
  apart := by
    have hnew : ∀ other c q, s.checkout other = some (c, q) → other ≠ me →
        ∀ path ∈ q.scratches, path ∉ p'.scratches := fun other c q hother hne path hpath hmem =>
      hs.notMem_of_advances h ha hother hne.symm path hpath (List.mem_append_right _ hmem)
    intro first second c c' q q' hfirst hsecond hne path hpath hmem
    rcases of_update hfirst with ⟨rfl, rfl⟩ | ⟨h1, hfirst'⟩
    · rcases of_update hsecond with ⟨heq, -⟩ | ⟨h2, hsecond'⟩
      · exact hne heq.symm
      · exact hnew second c' q' hsecond' h2 path hmem hpath
    · rcases of_update hsecond with ⟨rfl, rfl⟩ | ⟨h2, hsecond'⟩
      · exact hnew first c q hfirst' h1 path hpath hmem
      · exact hs.apart first second c c' q q' hfirst' hsecond' hne path hpath hmem

end IsSound

/-- Whatever happens next, all stays sound and the archives stay as they are. -/
theorem Step.isSound (h : Step site seat s s') (hs : s.IsSound site seat) :
    s'.IsSound site seat ∧ ∃ owned, s.world.Keeps site seat owned s'.world := by
  cases h with
  | @launch me b branch path hnone =>
    refine ⟨⟨hs.world, hs.archives, hs.builders, fun other c q hother => ?_, ?_⟩, [],
      .refl hs.world⟩
    · rcases of_update hother with ⟨-, rfl⟩ | ⟨-, hother⟩
      · exact ⟨by simp [Phase.scratches], trivial, by simp [Phase.result?]⟩
      · exact hs.checkouts other c q hother
    · intro first second c c' q q' hfirst hsecond hne path' hpath
      rcases of_update hfirst with ⟨-, rfl⟩ | ⟨-, hfirst⟩
      · simp [Phase.scratches] at hpath
      · rcases of_update hsecond with ⟨-, rfl⟩ | ⟨-, hsecond⟩
        · simp [Phase.scratches]
        · exact hs.apart first second c c' q q' hfirst hsecond hne path' hpath
  | @advance me b p p' w' b' hme hstep hprepare =>
    have ha := Phase.step_advances hs.world hs.archives (hs.builders b) (hs.checkouts me b p hme)
      hprepare hstep
    exact ⟨hs.advance hme ha, _, ha.keeps⟩
  | @fail me b p p' d' f hme hfail hleft =>
    have ha := Phase.failed_advances hs.world (hs.builders b) (hs.checkouts me b p hme) hfail hleft
    have hs' := hs.advance hme ha
    rw [Function.update_eq_self] at hs'
    exact ⟨hs', _, ha.keeps⟩
  | @leave me b job scratch rest result d' hme hleft =>
    have ha := Phase.left_advances hs.world (hs.builders b) (hs.checkouts me b _ hme) hleft
    have hs' := hs.advance hme ha
    rw [Function.update_eq_self] at hs'
    exact ⟨hs', _, ha.keeps⟩
  | @outside w' hsame =>
    have hkeeps := World.Keeps.of_sameCache [] hsame
    exact ⟨⟨hsame.sound, hs.archives_of_keeps hkeeps, fun b => (hs.builders b).keeps hkeeps,
      fun me b p hme => (hs.checkouts me b p hme).keeps hkeeps (by simp), hs.apart⟩, [], hkeeps⟩

theorem Steps.isSound (h : Steps site seat s s') (hs : s.IsSound site seat) :
    s'.IsSound site seat := by
  induction h with
  | refl => exact hs
  | tail _ hstep ih => exact (hstep.isSound ih).1

/-- An archive stays what it is, unless another takes the place of an empty one. -/
theorem Steps.archives (h : Steps site seat s s') (hs : s.IsSound site seat) {n : Name} {x : Node}
    (hx : s.world.disk.root.get? (seat.archive n) = some x) :
    ∃ x', s'.world.disk.root.get? (seat.archive n) = some x' ∧ (x' = x ∨ x.children = []) := by
  induction h with
  | refl => exact ⟨x, hx, .inl rfl⟩
  | tail hrun hstep ih =>
    obtain ⟨y, hy, heq⟩ := ih
    obtain ⟨-, owned, hkeeps⟩ := hstep.isSound (Steps.isSound hrun hs)
    obtain ⟨x', hx', heq'⟩ := hkeeps.archives n y hy
    refine ⟨x', hx', ?_⟩
    rcases heq with rfl | hempty
    · exact heq'
    · exact .inr hempty

/-- How a run begins: the archives that are there are such, no builder remembers one that is not,
and no checkout has started. -/
structure IsInitial (site : Site) (seat : Seat) (s : System) : Prop where
  world : s.world.IsSound site seat
  archives : ∀ n x, s.world.disk.root.get? (seat.archive n) = some x → IsArchive n x
  builders : ∀ b, (s.builder b).IsSound seat s.world
  checkouts : ∀ me, s.checkout me = none

theorem IsInitial.isSound (h : s.IsInitial site seat) : s.IsSound site seat where
  world := h.world
  archives := h.archives
  builders := h.builders
  checkouts me b p hme := by
    rw [h.checkouts me] at hme
    cases hme
  apart me other b c p q hme := by
    rw [h.checkouts me] at hme
    cases hme

end System

end Depot
