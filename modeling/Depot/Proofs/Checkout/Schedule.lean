import Depot.Proofs.Checkout.Run

/-!
Runs that keep to a schedule: at each time it says which checkout starts, goes on or fails. All are
checkouts of one builder, which knows its repository.
-/

namespace Depot

open Files

/-- What happens next. -/
inductive Call where
  | launch (me : Nat) (branch path : String)
  | go (me : Nat)
  | fail (me : Nat) (f : Failure)

namespace System

variable {site : Site} {seat : Seat} {s : System}

/-- What comes of a call. One that cannot be met changes nothing. -/
def answer (site : Site) (s : System) : Call → System
  | .launch me branch path =>
    if (s.checkout me).isSome then s
    else { s with checkout := Function.update s.checkout me (some (0, .start branch path)) }
  | .go me =>
    match s.checkout me with
    | some (b, p) =>
      let next := p.step site me s.world (s.builder b)
      ⟨next.1, Function.update s.builder b next.2.1,
        Function.update s.checkout me (some (b, next.2.2))⟩
    | none => s
  | .fail me f =>
    match s.checkout me with
    | some (b, p) =>
      match p.failed? f with
      | some p => { s with checkout := Function.update s.checkout me (some (b, p)) }
      | none => s
    | none => s

theorem answer_go {me b : Nat} {p : Phase} (h : s.checkout me = some (b, p)) :
    s.answer site (.go me) = ⟨(p.step site me s.world (s.builder b)).1,
      Function.update s.builder b (p.step site me s.world (s.builder b)).2.1,
      Function.update s.checkout me (some (b, (p.step site me s.world (s.builder b)).2.2))⟩ := by
  simp only [answer, h]

theorem answer_fail (site : Site) {me b : Nat} {p : Phase} (f : Failure) (h : s.checkout me = some (b, p)) :
    s.answer site (.fail me f) = s ∨ ∃ p', p.failed? f = some p' ∧
      s.answer site (.fail me f) =
        { s with checkout := Function.update s.checkout me (some (b, p')) } := by
  simp only [answer, h]
  cases p.failed? f with
  | none => exact .inl rfl
  | some p' => exact .inr ⟨p', rfl, rfl⟩

theorem answer_of_none {me : Nat} (h : s.checkout me = none) (f : Failure) :
    s.answer site (.go me) = s ∧ s.answer site (.fail me f) = s := by
  simp only [answer, h, and_self]

theorem step_answer (hs : s.IsSound site seat) (hready : ∀ b, (s.builder b).isReady = true)
    (call : Call) : Step site seat s (s.answer site call) := by
  have hsame : s.world.SameCache site seat s.world := ⟨hs.world, rfl, rfl, fun _ => rfl⟩
  have hidle : Step site seat s s := .outside hsame
  cases call with
  | launch me branch path =>
    rw [answer]
    split_ifs with hme
    · exact hidle
    · exact .launch branch path (by simpa using hme)
  | go me =>
    cases hme : s.checkout me with
    | none =>
      rw [(answer_of_none hme .emptyCommand).1]
      exact hidle
    | some checkout =>
      obtain ⟨b, p⟩ := checkout
      rw [answer_go hme]
      refine .advance hme rfl fun branch path hp => ?_
      rw [hp, Phase.prepare_of_isReady site me s.world branch path (hready b)]
      exact hsame
  | fail me f =>
    cases hme : s.checkout me with
    | none =>
      rw [(answer_of_none hme f).2]
      exact hidle
    | some checkout =>
      obtain ⟨b, p⟩ := checkout
      rcases answer_fail site f hme with heq | ⟨p', hfail, heq⟩
      · rw [heq]
        exact hidle
      · rw [heq]
        exact .fail f hme hfail ⟨hs.world.tree, rfl, fun _ _ => rfl⟩

theorem isReady_answer (h : ∀ b, (s.builder b).isReady = true) (call : Call) (b : Nat) :
    ((s.answer site call).builder b).isReady = true := by
  cases call with
  | launch me branch path =>
    rw [answer]
    split_ifs <;> exact h b
  | go me =>
    cases hme : s.checkout me with
    | none =>
      rw [(answer_of_none hme .emptyCommand).1]
      exact h b
    | some checkout =>
      obtain ⟨c, p⟩ := checkout
      obtain ⟨w', b', p', hstep⟩ : ∃ w' b' p', p.step site me s.world (s.builder c) = (w', b', p') :=
        ⟨_, _, _, rfl⟩
      rw [answer_go hme, hstep]
      by_cases hb : b = c
      · subst hb
        exact (congrArg Builder.isReady (Function.update_self ..)).trans (Phase.isReady_step hstep (h b))
      · exact (congrArg Builder.isReady (Function.update_of_ne hb ..)).trans (h b)
  | fail me f =>
    cases hme : s.checkout me with
    | none =>
      rw [(answer_of_none hme f).2]
      exact h b
    | some checkout =>
      obtain ⟨c, p⟩ := checkout
      rcases answer_fail site f hme with heq | ⟨p', -, heq⟩
      · rw [heq]
        exact h b
      · rw [heq]
        exact h b

/-- The state when some calls have been answered. -/
def after (site : Site) (s : System) (calls : List Call) : System := calls.foldl (answer site) s

theorem after_append (s : System) (calls more : List Call) :
    s.after site (calls ++ more) = (s.after site calls).after site more := List.foldl_append ..

theorem isReady_after (h : ∀ b, (s.builder b).isReady = true) (calls : List Call) (b : Nat) :
    ((s.after site calls).builder b).isReady = true := by
  induction calls generalizing s with
  | nil => exact h b
  | cons call calls ih => exact ih (isReady_answer h call)

theorem isSound_after (hs : s.IsSound site seat) (h : ∀ b, (s.builder b).isReady = true)
    (calls : List Call) : (s.after site calls).IsSound site seat := by
  induction calls generalizing s with
  | nil => exact hs
  | cons call calls ih => exact ih ((step_answer hs h call).isSound hs).1 (isReady_answer h call)

theorem after_go {me b n : Nat} {p p' : Phase} {w' : World} {b' : Builder}
    (h : s.checkout me = some (b, p))
    (hrun : Phase.run site me n s.world (s.builder b) p = (w', b', p')) :
    s.after site (List.replicate n (.go me)) =
      ⟨w', Function.update s.builder b b', Function.update s.checkout me (some (b, p'))⟩ := by
  induction n generalizing s p with
  | zero =>
    obtain ⟨rfl, hrest⟩ := Prod.mk.inj hrun
    obtain ⟨rfl, rfl⟩ := Prod.mk.inj hrest
    rw [Function.update_eq_self, Function.update_eq_self_iff.mpr h.symm]
    rfl
  | succ n ih =>
    rw [Phase.run] at hrun
    rw [List.replicate_succ, after, List.foldl_cons, ← after, answer_go h]
    generalize p.step site me s.world (s.builder b) = r at hrun
    let s' : System := ⟨r.1, Function.update s.builder b r.2.1,
      Function.update s.checkout me (some (b, r.2.2))⟩
    have hme : s'.checkout me = some (b, r.2.2) := Function.update_self ..
    have hbuilder : s'.builder b = r.2.1 := Function.update_self ..
    have hnext := ih hme (by rw [hbuilder]; exact hrun)
    exact hnext.trans (by simp only [s', Function.update_idem])

theorem after_launch {me n : Nat} {branch path : String} {p' : Phase} {w' : World} {b' : Builder}
    (h : s.checkout me = none)
    (hrun : Phase.run site me n s.world (s.builder 0) (.start branch path) = (w', b', p')) :
    s.after site (.launch me branch path :: List.replicate n (.go me)) =
      ⟨w', Function.update s.builder 0 b', Function.update s.checkout me (some (0, p'))⟩ := by
  let s' : System :=
    { s with checkout := Function.update s.checkout me (some (0, .start branch path)) }
  have hme : s'.checkout me = some (0, .start branch path) := Function.update_self ..
  rw [after, List.foldl_cons, ← after, answer, if_neg (by simp [h])]
  exact (after_go hme hrun).trans (by simp only [s', Function.update_idem])

section along

variable {okWorld : World → Bool} {okPhase : Phase → Bool}

/-- The world is as it should be, and so are all checkouts. -/
def IsFair (okWorld : World → Bool) (okPhase : Phase → Bool) (s : System) : Prop :=
  okWorld s.world = true ∧ ∀ me b p, s.checkout me = some (b, p) → okPhase p = true

/-- All stays fair while some calls are answered. -/
def Along (site : Site) (okWorld : World → Bool) (okPhase : Phase → Bool) (s : System)
    (calls : List Call) : Prop :=
  ∀ k, IsFair okWorld okPhase (s.after site (calls.take k))

theorem IsFair.update (h : s.IsFair okWorld okPhase) {me b : Nat} {w : World} {p : Phase}
    (hw : okWorld w = true) (hp : okPhase p = true) (builder : Nat → Builder) :
    IsFair okWorld okPhase ⟨w, builder, Function.update s.checkout me (some (b, p))⟩ := by
  refine ⟨hw, fun other c q hother => ?_⟩
  rcases of_update hother with ⟨-, rfl⟩ | ⟨-, hold⟩
  · exact hp
  · exact h.2 other c q hold

theorem Along.append {calls more : List Call} (h : s.Along site okWorld okPhase calls)
    (hmore : (s.after site calls).Along site okWorld okPhase more) :
    s.Along site okWorld okPhase (calls ++ more) := by
  intro k
  rw [List.take_append, after_append]
  by_cases hk : k ≤ calls.length
  · rw [Nat.sub_eq_zero_of_le hk]
    exact h k
  · rw [List.take_of_length_le (by omega)]
    exact hmore _

theorem along_go (h : s.IsFair okWorld okPhase) {me b n : Nat} {p : Phase}
    (hme : s.checkout me = some (b, p))
    (hfair : ∀ m ≤ n, okWorld (Phase.run site me m s.world (s.builder b) p).1 = true ∧
      okPhase (Phase.run site me m s.world (s.builder b) p).2.2 = true) :
    s.Along site okWorld okPhase (List.replicate n (.go me)) := by
  intro k
  rw [List.take_replicate, after_go hme rfl]
  obtain ⟨hw, hp⟩ := hfair _ (Nat.min_le_right k n)
  exact h.update hw hp _

theorem along_launch (h : s.IsFair okWorld okPhase) {me n : Nat} {branch path : String}
    (hme : s.checkout me = none)
    (hfair : ∀ m ≤ n, okWorld (Phase.run site me m s.world (s.builder 0) (.start branch path)).1 =
      true ∧ okPhase (Phase.run site me m s.world (s.builder 0) (.start branch path)).2.2 = true) :
    s.Along site okWorld okPhase (.launch me branch path :: List.replicate n (.go me)) := by
  intro k
  cases k with
  | zero => exact h
  | succ k =>
    rw [List.take_succ_cons, List.take_replicate, after_launch hme rfl]
    obtain ⟨hw, hp⟩ := hfair _ (Nat.min_le_right k n)
    exact h.update hw hp _

end along

end System

/-- A run that keeps to a schedule, and stands still when it is over. -/
def Run.scheduled {site : Site} {seat : Seat} {s : System} (h : s.IsInitial site seat)
    (hready : ∀ b, (s.builder b).isReady = true)
    (hforgotten : ∀ b key, (s.builder b).cache.get? key = none) (calls : List Call) :
    Run site seat where
  state n := s.after site (calls.take n)
  initial := h
  forgotten := hforgotten
  step n := by
    have hsound := System.isSound_after h.isSound hready (calls.take n)
    by_cases hn : n < calls.length
    · rw [List.take_succ_eq_append_getElem hn, System.after_append]
      exact System.step_answer hsound (System.isReady_after hready _) _
    · rw [List.take_of_length_le (by omega), List.take_of_length_le (by omega)] at *
      exact .outside ⟨hsound.world, rfl, rfl, fun _ => rfl⟩

end Depot
