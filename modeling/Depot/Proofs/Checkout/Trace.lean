import Depot.Proofs.Checkout.Attempt
import Depot.Proofs.Checkout.Locking

/-!
What a checkout that has no other beside it does to the memo, to the locks and to the world, from
its beginning on.
-/

namespace Depot

open Files Fingerprint

variable {site : Site} {seat : Seat} {me : Nat}

namespace Stand

def result? : Stand → Option (Except Failure Outcome)
  | ends _ _ result | leaves result | gone result => some result
  | _ => none

/-- What the table of locks has for a checkout. -/
def entry? : Stand → Option (CheckoutKey × LockId)
  | waits key lock | checks key lock | builds key lock | ends key lock _ => some (key, lock)
  | _ => none

/-- What a checkout has not found in the memo, and has not yet begun to build. -/
def missed? : Stand → Option CheckoutKey
  | asks key | waits key _ | checks key _ => some key
  | _ => none

/-- What a builder keeps while it has no more than one checkout. -/
structure IsAlone (me : Nat) (entries : List (CheckoutKey × Option ArchiveHash)) (c : Cache)
    (h : Held Nat) (σ : Stand) : Prop where
  memo : (∀ outcome, σ.result? ≠ some (.ok outcome)) → c.entries = entries
  locks : c.locks = σ.entry?.toList
  held : ∀ pair ∈ h.pairs, pair.2 = me
  free : ¬ σ.IsFree → h.pairs = []
  missed : ∀ key, σ.missed? = some key → c.get? key = none

variable {entries : List (CheckoutKey × Option ArchiveHash)} {c c' : Cache} {h h' : Held Nat}
  {σ σ' : Stand}

theorem IsAlone.next (ht : Turn me c h σ c' h' σ') (ha : IsAlone me entries c h σ) :
    IsAlone me entries c' h' σ' := by
  cases ht with
  | idle => exact ha
  | refuse => exact ⟨fun _ => ha.memo (by simp [result?]), ha.locks, ha.held, fun _ => ha.free id,
      by simp [missed?]⟩
  | come => exact ⟨fun _ => ha.memo (by simp [result?]), ha.locks, ha.held, fun _ => ha.free id,
      by simp [missed?]⟩
  | hit => exact ⟨fun hnone => absurd rfl (hnone _), ha.locks, ha.held, fun _ => ha.free id,
      by simp [missed?]⟩
  | miss hget =>
    refine ⟨fun _ => ha.memo (by simp [result?]), ha.locks, ha.held, fun _ => ha.free id, ?_⟩
    rintro key ⟨⟩
    exact hget
  | ask key =>
    refine ⟨fun _ => (Cache.entries_lockFor c key).trans (ha.memo (by simp [result?])), ?_, ha.held,
      fun _ => ha.free id, ?_⟩
    · have hlocks : c.locks = [] := ha.locks
      simp [Cache.lockFor, hlocks, assoc?, assocSet, entry?]
    · rintro key ⟨⟩
      exact Cache.get?_lockFor.trans (ha.missed key rfl)
  | take hfree =>
    refine ⟨fun _ => ha.memo (by simp [result?]), ha.locks, fun pair hpair => ?_,
      fun hnot => absurd trivial hnot, ha.missed⟩
    rcases Held.mem_of_acquire? hfree hpair with hold | rfl
    · exact ha.held pair hold
    · rfl
  | found hget => exact absurd (hget.symm.trans (ha.missed _ rfl)) (Option.some_ne_none _)
  | lack =>
    exact ⟨fun _ => ha.memo (by simp [result?]), ha.locks, ha.held, fun hnot => absurd trivial hnot,
      by simp [missed?]⟩
  | record =>
    exact ⟨fun hnone => absurd rfl (hnone _), ha.locks, ha.held, fun hnot => absurd trivial hnot,
      by simp [missed?]⟩
  | fail =>
    exact ⟨fun _ => ha.memo (by simp [result?]), ha.locks, ha.held, fun hnot => absurd trivial hnot,
      by simp [missed?]⟩
  | finish key lock result =>
    refine ⟨ha.memo, ?_, ha.held, fun hnot => absurd trivial hnot, by simp [missed?]⟩
    have hlocks : c.locks = [(key, lock)] := ha.locks
    simp [Cache.dropLock, hlocks, assocErase, entry?]
  | release result =>
    refine ⟨ha.memo, ha.locks, fun pair hpair => ha.held pair (Held.mem_release hpair).1,
      fun _ => ?_, by simp [missed?]⟩
    refine List.eq_nil_iff_forall_not_mem.mpr fun pair hpair => ?_
    obtain ⟨hmem, hne⟩ := Held.mem_release hpair
    exact hne (ha.held pair hmem)

end Stand

namespace Phase

/-- Before a checkout has made sure of the repository. -/
def isEarly : Phase → Bool
  | start .. | prepare .. => true
  | _ => false

/-- From then on until it makes the directories of the cache root. -/
def isReading : Phase → Bool
  | resolve .. | lookUp .. | askLock .. | acquire _ | lookAgain _ | makeDirs _ => true
  | _ => false

variable {w w' : World} {b b' : Builder} {p p' : Phase}

theorem isReady_eq_of_step (hp : ∀ branch path, p ≠ prepare branch path)
    (h : p.step site me w b = (w', b', p')) : b'.isReady = b.isReady := by
  unfold step at h
  split at h
  case h_2 => exact absurd rfl (hp _ _)
  all_goals
    try dsimp only at h
    repeat' split at h
    all_goals
      obtain ⟨-, rfl, -⟩ := Prod.mk.inj h
      rfl

theorem reading_step (hw : w.faults = []) (hp : p.isReading = true) (hmake : ∀ job, p ≠ makeDirs job)
    (h : p.step site me w b = (w', b', p')) :
    w' = w ∧ b'.isReady = b.isReady ∧ p'.isEarly = false := by
  have hjob : p.job? = none := by
    cases p
    case makeDirs job => exact absurd rfl (hmake job)
    all_goals first | rfl | cases hp
  have hprepare : ∀ branch path, p ≠ prepare branch path := by
    rintro branch path rfl
    cases hp
  have hdiscard : ∀ job scratches result, p ≠ discard job scratches result := by
    rintro job scratches result rfl
    cases hp
  refine ⟨(Stage.looks hw hjob hprepare hdiscard h).1, isReady_eq_of_step hprepare h, ?_⟩
  cases p
  case resolve | lookUp | askLock | acquire | lookAgain =>
    unfold step at h
    try dsimp only at h
    repeat' split at h
    all_goals
      obtain ⟨-, -, rfl⟩ := Prod.mk.inj h
      rfl
  case makeDirs job => exact absurd rfl (hmake job)
  all_goals cases hp

/-- Once a checkout writes it does not begin anew. -/
theorem late_step (hp : p.isEarly = false) (hp' : p.isReading = false)
    (h : p.step site me w b = (w', b', p')) : p'.isEarly = false ∧ p'.isReading = false := by
  unfold step at h
  split at h
  case h_1 | h_2 => cases hp
  case h_3 | h_4 | h_5 | h_6 | h_7 | h_8 => cases hp'
  all_goals
    try dsimp only at h
    repeat' split at h
    all_goals
      obtain ⟨-, -, rfl⟩ := Prod.mk.inj h
      exact ⟨rfl, rfl⟩

end Phase

namespace Stage

variable {s s' : Stage}

theorem Next.turn (h : Next site seat me s s') :
    Stand.Turn me s.builder.cache s.builder.held s.phase.stand s'.builder.cache s'.builder.held
      s'.phase.stand := by
  cases h with
  | go h => exact Phase.step_turn h
  | fail f h =>
    rcases Phase.stand_failed h with hstand | ⟨hapart, hgone⟩
    · rw [hstand]
      exact .idle ..
    · rw [hapart, hgone]
      exact .refuse ..
  | cease => exact .idle ..
  | probe => exact .idle ..

theorem Goes.isAlone (h : Goes site seat me s s')
    {entries : List (CheckoutKey × Option ArchiveHash)}
    (hs : Stand.IsAlone me entries s.builder.cache s.builder.held s.phase.stand) :
    Stand.IsAlone me entries s'.builder.cache s'.builder.held s'.phase.stand := by
  induction h with
  | refl => exact hs
  | tail _ hnext ih => exact ih.next hnext.turn

end Stage

/-- There is a repository in the end, whoever has made it: making one does not fail. It changes
nothing where there is one already, and nothing in the cache root. -/
structure Builder.Settles (site : Site) (seat : Seat) (w : World) (b : Builder) (w₁ : World) :
    Prop where
  ready : b.isReady = true → w₁ = w
  made : b.isReady = false → History.prepare site.repository w = (w₁, .ok ())
  present : b.isReady = false → (Repository.find? w.disk site.repository).isSome = true → w₁ = w
  same : w.SameCache site seat w₁

namespace Stage

/-- What a checkout has done so far: nothing, or made sure of the repository, or that and made some
of the directories of the cache root, with something in them. -/
inductive Trace (site : Site) (seat : Seat) (w : World) (b₀ : Builder) (w₁ : World) : Stage → Prop
  | early {b : Builder} {p : Phase} (hp : p.isEarly = true ∨ ∃ f, p = .done (.error f))
    (hb : b.isReady = b₀.isReady) : Trace site seat w b₀ w₁ ⟨w, b, p⟩
  | reading {b : Builder} {p : Phase} (hp : p.isReading = true) (hb : b.isReady = true) :
    Trace site seat w b₀ w₁ ⟨w₁, b, p⟩
  | late {w' : World} {b : Builder} {p : Phase} {k : Nat} {d : Disk} (hp : p.isEarly = false)
    (hp' : p.isReading = false) (hb : b.isReady = true)
    (hdirs : Workspace.ensure w₁.disk (site.dirs.take k) = (d, .ok ()))
    (hstays : { w₁ with disk := d }.Stays seat w') : Trace site seat w b₀ w₁ ⟨w', b, p⟩

variable {w w₁ : World} {b₀ : Builder} {s s' : Stage}

theorem Trace.of_stays {w' : World} {b : Builder} {p : Phase} (hp : p.isEarly = false)
    (hp' : p.isReading = false) (hb : b.isReady = true) (h : w₁.Stays seat w') :
    Trace site seat w b₀ w₁ ⟨w', b, p⟩ := .late (k := 0) hp hp' hb rfl h

theorem Trace.next (hset : b₀.Settles site seat w w₁) (hs : s.IsSound site seat)
    (h : Next site seat me s s') (ht : Trace site seat w b₀ w₁ s) : Trace site seat w b₀ w₁ s' := by
  have hw₁ := hset.same.sound
  cases h with
  | @go v v' b b' p p' h hprepare =>
    have ha := Phase.step_advances hs.world hs.archives hs.builder hs.phase hprepare h
    cases ht with
    | early hp hb =>
      cases p
      case start branch path =>
        unfold Phase.step at h
        dsimp only at h
        split at h <;> obtain ⟨rfl, rfl, rfl⟩ := Prod.mk.inj h
        · exact .early (.inr ⟨_, rfl⟩) hb
        · exact .early (.inl rfl) hb
      case prepare branch path =>
        rcases prepare_cases h with ⟨f, hfails, hnot, -, -⟩ | ⟨rfl, rfl, ⟨hready, rfl⟩ | ⟨hnot, hmade⟩⟩
        · rw [hset.made (hb ▸ hnot)] at hfails
          cases hfails
        · obtain rfl := hset.ready (hb ▸ hready)
          exact .reading rfl rfl
        · rw [hset.made (hb ▸ hnot)] at hmade
          obtain ⟨rfl, -⟩ := Prod.mk.inj hmade
          exact .reading rfl rfl
      case done result =>
        obtain ⟨rfl, rfl, rfl⟩ := Prod.mk.inj h
        exact .early hp hb
      all_goals simp [Phase.isEarly] at hp
    | reading hp hb =>
      by_cases hmake : ∃ job, p = .makeDirs job
      · obtain ⟨job, rfl⟩ := hmake
        obtain ⟨d, rfl, rfl, hensure⟩ := makeDirs_cases h
        obtain ⟨r, hr⟩ : ∃ r, Workspace.ensure w₁.disk site.dirs = (d, r) := by
          rcases hensure with ⟨hd, -⟩ | ⟨f, hd, -⟩ <;> exact ⟨_, hd⟩
        obtain ⟨k, hk⟩ := ensure_take hr
        have hlate : p'.isEarly = false ∧ p'.isReading = false := by
          rcases hensure with ⟨-, rfl⟩ | ⟨f, -, rfl⟩ <;> exact ⟨rfl, rfl⟩
        exact .late hlate.1 hlate.2 hb hk (.refl ha.keeps.sound.tree)
      · obtain ⟨rfl, hb', hearly⟩ :=
          Phase.reading_step hw₁.undisturbed hp (fun job heq => hmake ⟨job, heq⟩) h
        cases hp' : p'.isReading with
        | true => exact .reading hp' (hb'.trans hb)
        | false => exact .of_stays hearly hp' (hb'.trans hb) (.refl hw₁.tree)
    | late hp hp' hb hdirs hstays =>
      obtain ⟨hearly, hreading⟩ := Phase.late_step hp hp' h
      have hprep : ∀ branch path, p ≠ .prepare branch path := by
        rintro branch path rfl
        cases hp
      have hmake : ∀ job, p ≠ .makeDirs job := by
        rintro job rfl
        cases hp'
      exact .late hearly hreading ((Phase.isReady_eq_of_step hprep h).trans hb) hdirs
        (hstays.trans (hs.stirs ha.keeps.sound hprep hmake h).stays)
  | @fail v b p p' d' f h hleft =>
    have ht' : v.Touches site seat p.scratches { v with disk := d' } := ⟨hleft, rfl⟩
    have hp' : p'.isEarly = false ∧ p'.isReading = false := by
      rcases Phase.failed?_cases h with ⟨rfl, -, -⟩ | ⟨job, -, rfl⟩ <;> exact ⟨rfl, rfl⟩
    cases ht with
    | early hp hb =>
      have hnil : p.scratches = [] ∧ p' = .done (.error f) := by
        rcases Phase.failed?_cases h with ⟨rfl, hnil, -⟩ | ⟨job, hjob, -⟩
        · exact ⟨hnil, rfl⟩
        · rcases hp with hp | ⟨f, rfl⟩
          · have hnone : p.job? = none := by
              cases p <;> first | rfl | simp [Phase.isEarly] at hp
            rw [hnone] at hjob
            cases hjob
          · cases hjob
      obtain ⟨hnil, rfl⟩ := hnil
      have hsame : d' = w.disk :=
        (World.Stays.of_touches ht').disk_eq hs.world.tree fun a n =>
          Node.get?_eq_of_look_eq hleft.sound hs.world.tree fun rest =>
            hleft.look _ fun σ hσ => absurd hσ (by simp [hnil])
      rw [hsame]
      exact .early (.inr ⟨f, rfl⟩) hb
    | reading hp hb => exact .of_stays hp'.1 hp'.2 hb (.of_touches ht')
    | late hp _ hb hdirs hstays => exact .late hp'.1 hp'.2 hb hdirs (hstays.trans (.of_touches ht'))
  | @cease v b job d' f k h =>
    cases ht with
    | early hp => simp [Phase.isEarly] at hp
    | reading hp hb =>
      have hs' := hs.of_ensure (f := f) h
      exact .late rfl rfl hb h (.refl hs'.world.tree)
    | late _ hp' => cases hp'
  | @probe v b branch path h =>
    cases ht with
    | early hp hb =>
      have hsame : w₁ = w := by
        cases hready : b₀.isReady with
        | true => exact hset.ready hready
        | false => exact hset.present hready h
      rw [← hsame]
      exact .reading rfl rfl
    | reading hp => cases hp
    | late hp => cases hp

theorem Goes.trace (hset : b₀.Settles site seat w w₁) (hs : s.IsSound site seat)
    (h : Goes site seat me s s') (ht : Trace site seat w b₀ w₁ s) : Trace site seat w b₀ w₁ s' := by
  induction h with
  | refl => exact ht
  | tail hgoes hnext ih => exact .next hset (Goes.archives hgoes hs).1 hnext ih

end Stage

end Depot
