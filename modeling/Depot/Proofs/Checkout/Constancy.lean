import Depot.Proofs.Checkout.Account
import Depot.Proofs.History.Tip

/-!
Branches that stay where they are. If a branch is there, at one commit, from when a checkout asks for
it until the checkout clones it, the clone is at the commit that the checkout has been told.
-/

namespace Depot

open Files

namespace Run

variable {site : Site} {seat : Seat}

/-- The next step of a checkout asks the repository which commit its branch is at. -/
def Asks (run : Run site seat) (b i me : Nat) (branch : String) (key : CheckoutKey) : Prop :=
  (∃ path, (run.state i).checkout me = some (b, .resolve branch path)) ∧
    (run.state (i + 1)).checkout me = some (b, .lookUp branch key)

/-- The next step of a checkout clones its branch. -/
def Clones (run : Run site seat) (b n me : Nat) (branch : String) : Prop :=
  ∃ job scratch, job.branch = branch ∧ (run.state n).checkout me = some (b, .clone job scratch) ∧
    (run.state (n + 1)).checkout me = some (b, .readHead job scratch)

/-- From when a checkout asks for its branch until it clones it, the branch is there and at one
commit. -/
def KeepsBranches (run : Run site seat) (b : Nat) : Prop :=
  ∀ i n me branch key, i ≤ n → run.Asks b i me branch key → run.Clones b n me branch →
    ∃ commit, ∀ j, i ≤ j → j ≤ n → (run.world j).IsAt site.repository branch commit

/-- What a checkout has done to come to where it is. -/
def Traced (run : Run site seat) (b n me : Nat) : Phase → Prop
  | .lookUp branch key | .askLock branch key => ∃ i < n, run.Asks b i me branch key
  | .acquire job | .lookAgain job | .makeDirs job | .openScratch job | .clone job _ =>
    ∃ i < n, run.Asks b i me job.branch job.key
  | .readHead job scratch => ∃ tree es, World.IsClone job.key.commit tree es ∧
    (run.world n).Has site seat scratch fun x => x.get? [Phase.checkoutName] = some (Node.dir 0o755 es)
  | .strip build => build.commit = build.job.key.commit
  | _ => True

variable {run : Run site seat} {b n me : Nat} {p p' : Phase}

theorem asks_later {branch : String} {key : CheckoutKey}
    (h : ∃ i < n, run.Asks b i me branch key) : ∃ i < n + 1, run.Asks b i me branch key := by
  obtain ⟨i, hi, hasks⟩ := h
  exact ⟨i, Nat.lt_succ_of_lt hi, hasks⟩

theorem Asks.tip_eq {i : Nat} {branch : String} {key : CheckoutKey} (h : run.Asks b i me branch key) :
    ∃ w, History.tip site.repository branch (run.world i) = (w, .ok key.commit) := by
  obtain ⟨⟨path, hresolve⟩, hlookUp⟩ := h
  obtain ⟨p, hp, hmoves⟩ := run.moves hresolve
  obtain ⟨-, rfl⟩ := Prod.mk.inj (Option.some.inj (hp.symm.trans hlookUp))
  generalize hq : Phase.resolve branch path = q at hmoves
  generalize hq' : Phase.lookUp branch key = q' at hmoves
  cases hmoves with
  | step hstep =>
    subst hq
    unfold Phase.step at hstep
    dsimp only at hstep
    split at hstep <;> obtain ⟨-, -, rfl⟩ := Prod.mk.inj hstep
    · cases hq'
    next w commit htip =>
      obtain ⟨-, rfl⟩ := Phase.lookUp.inj hq'
      exact ⟨w, htip⟩
  | fail hfail =>
    subst hq
    obtain rfl := Option.some.inj hfail
    cases hq'
  | leave hdiscard =>
    subst hq
    cases hdiscard
  | stay =>
    subst hq
    cases hq'

theorem traced_clone (hkeeps : run.KeepsBranches b) {job : Job} {scratch : Bytes} {c' : Builder}
    (hme : (run.state n).checkout me = some (b, .clone job scratch))
    (hme' : (run.state (n + 1)).checkout me = some (b, p'))
    (h : run.Traced b n me (.clone job scratch))
    (hstep : (Phase.clone job scratch).step site me (run.world n) ((run.state n).builder b) =
      (run.world (n + 1), c', p')) : run.Traced b (n + 1) me p' := by
  obtain ⟨i, hi, hasks⟩ := h
  have hp := (run.isSound n).checkouts me b _ hme
  unfold Phase.step at hstep
  dsimp only at hstep
  cases hclone : History.clone site.repository job.branch (Build.checkout scratch) (run.world n) with
  | mk w r =>
  obtain ⟨-, hcloned⟩ := World.clone_keeps (run.isSound n).world hp.ready hclone
  rw [hclone] at hstep
  cases r with
  | error f =>
    obtain ⟨-, -, rfl⟩ := Prod.mk.inj hstep
    trivial
  | ok u =>
    obtain ⟨hworld, hrest⟩ := Prod.mk.inj hstep
    obtain ⟨-, rfl⟩ := Prod.mk.inj hrest
    obtain ⟨commit, tree, es, hclones, hx⟩ := hcloned rfl
    obtain ⟨c, hstays⟩ := hkeeps i n me job.branch job.key (Nat.le_of_lt hi) hasks
      ⟨job, scratch, rfl, hme, hme'⟩
    obtain ⟨w', htip⟩ := hasks.tip_eq
    have htold : job.key.commit = c := (hstays i (Nat.le_refl i) (Nat.le_of_lt hi)).commit_eq
      (History.hasTip_or_mistakes_of_tip (run.isSound i).world.undisturbed htip)
    have hmade : commit = c := (hstays n (Nat.le_of_lt hi) (Nat.le_refl n)).commit_eq
      hclones.hasTip_or_mistakes
    refine ⟨tree, es, ?_, hworld ▸ hx⟩
    rw [htold, ← hmade]
    exact hclones.isClone

theorem traced_readHead (hroom : seat.HasRoom) {job : Job} {scratch : Bytes} {c' : Builder}
    (h : run.Traced b n me (.readHead job scratch))
    (hstep : (Phase.readHead job scratch).step site me (run.world n) ((run.state n).builder b) =
      (run.world (n + 1), c', p')) : run.Traced b (n + 1) me p' := by
  obtain ⟨tree, es, hclone, hx⟩ := h
  have hw := (run.isSound n).world
  unfold Phase.step at hstep
  dsimp only at hstep
  cases hhead : History.head (Build.checkout scratch) (run.world n) with
  | mk w r =>
  rw [hhead] at hstep
  cases r with
  | error f =>
    obtain ⟨-, -, rfl⟩ := Prod.mk.inj hstep
    trivial
  | ok head =>
    obtain ⟨-, hrest⟩ := Prod.mk.inj hstep
    obtain ⟨-, rfl⟩ := Prod.mk.inj hrest
    exact hw.head_eq hroom hclone hx hhead

theorem Traced.step (hroom : seat.HasRoom) (hkeeps : run.KeepsBranches b) {c' : Builder}
    (hme : (run.state n).checkout me = some (b, p))
    (hme' : (run.state (n + 1)).checkout me = some (b, p')) (h : run.Traced b n me p)
    (hstep : p.step site me (run.world n) ((run.state n).builder b) = (run.world (n + 1), c', p')) :
    run.Traced b (n + 1) me p' := by
  cases p
  case clone job scratch => exact traced_clone hkeeps hme hme' h hstep
  case readHead job scratch => exact traced_readHead hroom h hstep
  case resolve branch path =>
    unfold Phase.step at hstep
    dsimp only at hstep
    split at hstep <;> obtain ⟨-, -, rfl⟩ := Prod.mk.inj hstep
    · trivial
    · exact ⟨n, n.lt_succ_self, ⟨path, hme⟩, hme'⟩
  case askLock branch key =>
    obtain ⟨-, -, rfl⟩ := Prod.mk.inj hstep
    exact asks_later h
  case discard job scratches result =>
    cases scratches <;> obtain ⟨-, -, rfl⟩ := Prod.mk.inj hstep <;> trivial
  case remember job result =>
    cases result <;> obtain ⟨-, -, rfl⟩ := Prod.mk.inj hstep <;> trivial
  case copy build route tasks =>
    cases tasks with
    | nil =>
      obtain ⟨-, -, rfl⟩ := Prod.mk.inj hstep
      trivial
    | cons task rest =>
      unfold Phase.step at hstep
      dsimp only at hstep
      split at hstep <;> obtain ⟨-, -, rfl⟩ := Prod.mk.inj hstep <;> trivial
  case lookUp | acquire | lookAgain | makeDirs | openScratch =>
    unfold Phase.step at hstep
    dsimp only at hstep
    split at hstep <;> obtain ⟨-, -, rfl⟩ := Prod.mk.inj hstep
    all_goals first | exact asks_later h | trivial
  all_goals
    unfold Phase.step at hstep
    dsimp only at hstep
    repeat' split at hstep
    all_goals
      obtain ⟨-, -, rfl⟩ := Prod.mk.inj hstep
      trivial

theorem traced_failed {f : Failure} (h : p.failed? f = some p') : run.Traced b n me p' := by
  cases p
  case start | prepare | resolve =>
    obtain rfl := Option.some.inj h
    trivial
  case makeDirs | openScratch | clone | readHead | strip | locate | openWorkspace | openSource | copy
    | hash | share | publish =>
    obtain rfl := Option.some.inj h
    trivial
  all_goals cases h

theorem Traced.later {owned : List Bytes} (h : run.Traced b n me p)
    (hkeeps : (run.world n).Keeps site seat owned (run.world (n + 1)))
    (hown : ∀ path ∈ p.scratches, path ∉ owned) : run.Traced b (n + 1) me p := by
  cases p with
  | lookUp | askLock | acquire | lookAgain | makeDirs | openScratch | clone => exact asks_later h
  | readHead job scratch =>
    obtain ⟨tree, es, hclone, hx⟩ := h
    exact ⟨tree, es, hclone, hx.keeps hkeeps (hown _ (by simp [Phase.scratches]))⟩
  | strip => exact h
  | _ => trivial

theorem traced (hroom : seat.HasRoom) (hkeeps : run.KeepsBranches b)
    (hme : (run.state n).checkout me = some (b, p)) : run.Traced b n me p := by
  induction n generalizing p with
  | zero =>
    rw [run.initial.checkouts me] at hme
    cases hme
  | succ n ih =>
    cases hold : (run.state n).checkout me with
    | none =>
      obtain ⟨branch, path, rfl⟩ := run.start_of_none hold hme
      trivial
    | some checkout =>
      obtain ⟨c, q⟩ := checkout
      obtain ⟨p', hp', hmoves⟩ := run.moves hold
      obtain ⟨rfl, rfl⟩ := Prod.mk.inj (Option.some.inj (hp'.symm.trans hme))
      cases hmoves with
      | step hstep => exact (ih hold).step hroom hkeeps hold hme hstep
      | fail hfail => exact traced_failed hfail
      | leave => trivial
      | stay hkept hown => exact (ih hold).later hkept hown

/-- If branches stay where they are, every clone is at the commit that its checkout was told. -/
theorem commit_of_strip (hroom : seat.HasRoom) (hkeeps : run.KeepsBranches b) {build : Build}
    (hme : (run.state n).checkout me = some (b, .strip build)) :
    build.commit = build.job.key.commit :=
  traced hroom hkeeps hme

end Run

end Depot
