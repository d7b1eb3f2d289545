import TagTree.Proofs.Registry.Consistent
import TagTree.Published

/-!
# The life of the published registry

A script is taken apart into steps: the calls that are answered at once, and the
start and the end of every initializer that runs. `Move` says what a step can do
to the host, `Runs` which steps a script takes and what its calls answer, and
every script runs this way. Inside an initializer no other is started, so the
flag tells whether one runs. Each step obeys the laws of the slot: it is filled
by a publication or by the end of the outermost initializer, emptied by taking
the registry down, and while it is full nothing but the published instance is
given out.

The statement about a run is proved in two parts. `Move.lawful` says of one step
what it does and does not do: which instance is given out, when the slot may
change, that instances are neither changed nor dropped and that published ones
are finalized. `Keeps` is what a list of steps preserves, and the induction over
`Runs` follows the constructors, one for every call and one for an initializer
with the script inside it.

The depth of an initializer is carried along although it never exceeds one,
since this is what has to be proved: the flag is raised exactly while an
initializer runs, and an access that finds the flag raised and the slot empty
gets an instance of its own instead of starting another initializer.
-/
namespace TagTree.Host

inductive Act where
  | publish (offered : Registry) (outcome : Except RegistryError Nat)
  /-- An access that is answered at once. -/
  | access (number : Nat)
  /-- An initializer starts, for an access that finds nothing. -/
  | start
  /-- An initializer has ended with this registry, and the access is answered. -/
  | finish (made : Registry) (number : Nat)
  | tryGet (found : Option Nat)
  | isPublished (answer : Bool)
  | takeDown (found : Option Nat)

/-- Put a registry in as the published one. -/
def published (p : Host) (r : Registry) : Host :=
  { p with instances := p.instances ++ [r], slot := some p.instances.length }

inductive Move : Host → Act → Host → Prop
  | publish {p : Host} (r : Registry) : p.slot = none →
      Move p (.publish r (.ok p.instances.length)) (p.published r.finalize.value)
  | refuse {p : Host} (r : Registry) {n : Nat} : p.slot = some n →
      Move p (.publish r (.error .alreadyPublished)) p
  | found {p : Host} {n : Nat} : p.slot = some n → Move p (.access n) p
  /-- An access from inside an initializer, before anything is published. -/
  | early {p : Host} : p.slot = none → p.initializing = true →
      Move p (.access p.instances.length)
        { p with instances := p.instances ++ [(Registry.empty {}).finalize.value] }
  | start {p : Host} : p.slot = none → p.initializing = false →
      Move p .start { p with initializing := true }
  /-- What the initializer published itself stays. -/
  | finishFull {p : Host} (made : Registry) {n : Nat} : p.initializing = true → p.slot = some n →
      Move p (.finish made n) { p with initializing := false }
  | finish {p : Host} (made : Registry) : p.initializing = true → p.slot = none →
      Move p (.finish made p.instances.length)
        { p.published made.finalize.value with initializing := false }
  | tryGet (p : Host) : Move p (.tryGet p.slot) p
  | isPublished (p : Host) : Move p (.isPublished p.slot.isSome) p
  | takeDown (p : Host) : Move p (.takeDown p.slot) { p with slot := none }

/-- A step that is taken while `depth` initializers run around it. -/
structure Step where
  depth : Nat
  before : Host
  act : Act
  after : Host

def answerOf : Except RegistryError Nat → Answer
  | .ok number => .handle number
  | .error cause => .refused cause

def answerOf? : Option Nat → Answer
  | some number => .handle number
  | none => .nothing

/-- The steps of a script that runs inside `depth` initializers, and the answers of its calls. -/
inductive Runs : Nat → Script → Host → List Step → List Answer → Host → Prop
  | stop (depth : Nat) (p : Host) : Runs depth .stop p [] [] p
  | publish {depth : Nat} {r : Registry} {outcome : Except RegistryError Nat} {next : Script}
      {p q e : Host} {steps : List Step} {later : List Answer} :
      Move p (.publish r outcome) q → Runs depth next q steps later e →
      Runs depth (.publish r next) p (⟨depth, p, .publish r outcome, q⟩ :: steps)
        (answerOf outcome :: later) e
  | get {depth n : Nat} {next : Script} {p q e : Host} {steps : List Step}
      {later : List Answer} : Move p (.access n) q → Runs depth next q steps later e →
      Runs depth (.get next) p (⟨depth, p, .access n, q⟩ :: steps) (.handle n :: later) e
  /-- The initializer of `get` makes an empty registry. -/
  | getNew {depth n : Nat} {next : Script} {p i q e : Host} {steps : List Step}
      {later : List Answer} : Move p .start i → Move i (.finish (.empty {}) n) q →
      Runs depth next q steps later e →
      Runs depth (.get next) p
        (⟨depth, p, .start, i⟩ :: ⟨depth, i, .finish (.empty {}) n, q⟩ :: steps)
        (.handle n :: later) e
  | getOrInit {depth n : Nat} {body next : Script} {made : Registry} {p q e : Host}
      {steps : List Step} {later : List Answer} :
      Move p (.access n) q → Runs depth next q steps later e →
      Runs depth (.getOrInit body made next) p (⟨depth, p, .access n, q⟩ :: steps)
        (.initialized n false [] :: later) e
  | getOrInitNew {depth n : Nat} {body next : Script} {made : Registry} {p i j q e : Host}
      {inner steps : List Step} {said later : List Answer} :
      Move p .start i → Runs (depth + 1) body i inner said j → Move j (.finish made n) q →
      Runs depth next q steps later e →
      Runs depth (.getOrInit body made next) p
        (⟨depth, p, .start, i⟩ :: (inner ++ ⟨depth, j, .finish made n, q⟩ :: steps))
        (.initialized n true said :: later) e
  | tryGet {depth : Nat} {next : Script} {p e : Host} {steps : List Step} {later : List Answer} :
      Runs depth next p steps later e →
      Runs depth (.tryGet next) p (⟨depth, p, .tryGet p.slot, p⟩ :: steps)
        (answerOf? p.slot :: later) e
  | isPublished {depth : Nat} {next : Script} {p e : Host} {steps : List Step}
      {later : List Answer} : Runs depth next p steps later e →
      Runs depth (.isPublished next) p (⟨depth, p, .isPublished p.slot.isSome, p⟩ :: steps)
        (.flag p.slot.isSome :: later) e
  | takeDown {depth : Nat} {next : Script} {p e : Host} {steps : List Step}
      {later : List Answer} : Runs depth next { p with slot := none } steps later e →
      Runs depth (.takeDown next) p
        (⟨depth, p, .takeDown p.slot, { p with slot := none }⟩ :: steps)
        (answerOf? p.slot :: later) e

theorem publish_move (p : Host) (r : Registry) :
    Move p (.publish r (p.publish r).value.2) (p.publish r).value.1 := by
  unfold Host.publish
  cases hslot : p.slot with
  | none => exact .publish r hslot
  | some n => exact .refuse r hslot

theorem settle_move {p : Host} (hp : p.initializing = true) (made : Registry) :
    Move p (.finish made ({ p with initializing := false }.settle made).value.2)
      ({ p with initializing := false }.settle made).value.1 := by
  obtain ⟨instances, slot, initializing⟩ := p
  cases slot with
  | none => exact .finish made hp rfl
  | some n => exact .finishFull made hp rfl

theorem Move.initializing {p q : Host} {a : Act} (h : Move p a q) : q.initializing =
    match a with
    | .start => true
    | .finish _ _ => false
    | _ => p.initializing := by
  cases h <;> rfl

theorem Runs.initializing {depth : Nat} {script : Script} {p e : Host} {steps : List Step}
    {answers : List Answer} (h : Runs depth script p steps answers e) :
    e.initializing = p.initializing := by
  induction h with
  | stop depth p => rfl
  | publish hmove _ ih => exact ih.trans hmove.initializing
  | get hmove _ ih => exact ih.trans hmove.initializing
  | getNew hstart hfinish _ ih =>
      rw [ih, hfinish.initializing]
      cases hstart with
      | start _ hp => exact hp.symm
  | getOrInit hmove _ ih => exact ih.trans hmove.initializing
  | getOrInitNew hstart _ hfinish _ _ ih =>
      rw [ih, hfinish.initializing]
      cases hstart with
      | start _ hp => exact hp.symm
  | tryGet _ ih => exact ih
  | isPublished _ ih => exact ih
  | takeDown _ ih => exact ih

/-- A run takes steps, and they lead to the host and the answers that the run ends with. -/
theorem run_runs (script : Script) (depth : Nat) (p : Host) :
    ∃ steps, Runs depth script p steps (run script p).value.2 (run script p).value.1 := by
  induction script generalizing depth p with
  | stop => exact ⟨_, .stop depth p⟩
  | publish r next ih =>
      have hmove := publish_move p r
      obtain ⟨steps, hsteps⟩ := ih depth (p.publish r).value.1
      rw [run, Logged.value_bind]
      cases hout : (p.publish r).value with
      | mk q outcome =>
      rw [hout] at hmove hsteps
      cases outcome with
      | ok n => exact ⟨_, .publish hmove hsteps⟩
      | error cause => exact ⟨_, .publish hmove hsteps⟩
  | get next ih =>
      obtain ⟨instances, slot, initializing⟩ := p
      cases slot with
      | some n =>
          obtain ⟨steps, hsteps⟩ := ih depth ⟨instances, some n, initializing⟩
          exact ⟨_, .get (.found rfl) hsteps⟩
      | none =>
          cases initializing with
          | true =>
              obtain ⟨steps, hsteps⟩ := ih depth (placeholder ⟨instances, none, true⟩).value.1
              exact ⟨_, .get (.early rfl rfl) hsteps⟩
          | false =>
              obtain ⟨steps, hsteps⟩ :=
                ih depth (settle ⟨instances, none, false⟩ (.empty {})).value.1
              exact ⟨_, .getNew (.start rfl rfl) (settle_move rfl (.empty {})) hsteps⟩
  | getOrInit body made next ihbody ihnext =>
      obtain ⟨instances, slot, initializing⟩ := p
      cases slot with
      | some n =>
          obtain ⟨steps, hsteps⟩ := ihnext depth ⟨instances, some n, initializing⟩
          exact ⟨_, .getOrInit (.found rfl) hsteps⟩
      | none =>
          cases initializing with
          | true =>
              obtain ⟨steps, hsteps⟩ := ihnext depth (placeholder ⟨instances, none, true⟩).value.1
              exact ⟨_, .getOrInit (.early rfl rfl) hsteps⟩
          | false =>
              obtain ⟨inner, hinner⟩ := ihbody (depth + 1) ⟨instances, none, true⟩
              have hflag := hinner.initializing
              obtain ⟨steps, hsteps⟩ := ihnext depth
                ({ (run body ⟨instances, none, true⟩).value.1 with initializing := false }.settle
                  made).value.1
              exact ⟨_, .getOrInitNew (.start rfl rfl) hinner (settle_move hflag made) hsteps⟩
  | tryGet next ih =>
      obtain ⟨steps, hsteps⟩ := ih depth p
      exact ⟨_, .tryGet hsteps⟩
  | isPublished next ih =>
      obtain ⟨steps, hsteps⟩ := ih depth p
      exact ⟨_, .isPublished hsteps⟩
  | takeDown next ih =>
      obtain ⟨steps, hsteps⟩ := ih depth { p with slot := none }
      exact ⟨_, .takeDown hsteps⟩

def Sound (p : Host) : Prop :=
  ∀ n, p.slot = some n → ∃ r, p.instance? n = some r ∧ r.finalized

/-- What the slot allows while `n` is published: `n` is given out, and only taking it down changes what
is published. -/
def Step.AtFull (s : Step) (n : Nat) : Prop :=
  match s.act with
  | .publish _ outcome => outcome = .error .alreadyPublished ∧ s.after = s.before
  | .access m => m = n ∧ s.after = s.before
  | .start => False
  | .finish _ m => m = n ∧ s.after.slot = some n
  | .tryGet found => found = some n ∧ s.after = s.before
  | .isPublished answer => answer = true ∧ s.after = s.before
  | .takeDown found => found = some n ∧ s.after.slot = none

/-- What the slot allows while nothing is published. An access that is answered at once comes from
inside an initializer and gets an instance of its own. -/
def Step.AtEmpty (s : Step) : Prop :=
  match s.act with
  | .publish r outcome => ∃ n, outcome = .ok n ∧ s.after.slot = some n ∧
      s.after.instance? n = some r.finalize.value
  | .access n => 0 < s.depth ∧ s.after.slot = none ∧ s.before.instance? n = none ∧
      ∃ r, s.after.instance? n = some r ∧ r.isEmpty ∧ r.finalized
  | .start => s.after.slot = none
  | .finish made n => s.after.slot = some n ∧ s.after.instance? n = some made.finalize.value
  | .tryGet found => found = none ∧ s.after = s.before
  | .isPublished answer => answer = false ∧ s.after = s.before
  | .takeDown found => found = none ∧ s.after = s.before

structure Lawful (s : Step) : Prop where
  sound : s.after.Sound
  /-- No instance is changed or dropped. -/
  instances : s.before.instances <+: s.after.instances
  full : ∀ n, s.before.slot = some n → s.AtFull n
  empty : s.before.slot = none → s.AtEmpty
  filled : s.before.slot = none → ∀ n, s.after.slot = some n →
    ∃ r, s.act = .publish r (.ok n) ∨ s.act = .finish r n
  emptied : ∀ n, s.before.slot = some n → s.after.slot = none → s.act = .takeDown (some n)
  /-- Inside an initializer no other is started. -/
  outermost : ∀ r n, s.act = .start ∨ s.act = .finish r n → s.depth = 0
  /-- The flag tells whether the step is taken inside an initializer; it is raised at the start of one
  and lowered when it has ended. -/
  flagBefore : (∀ r n, s.act ≠ .finish r n) → (s.before.initializing ↔ 0 < s.depth)
  flagAfter : s.act ≠ .start → (s.after.initializing ↔ 0 < s.depth)

theorem instance?_published (p : Host) (r : Registry) :
    (p.published r).instance? p.instances.length = some r := by
  simp [published, instance?]

theorem published_sound (p : Host) (r : Registry) : (p.published r.finalize.value).Sound := by
  intro n hn
  cases hn
  exact ⟨_, instance?_published p _, r.finalize_finalized⟩

theorem Sound.append {p : Host} (h : p.Sound) (added : List Registry) :
    Sound { p with instances := p.instances ++ added } := by
  intro n hn
  obtain ⟨r, hr, hf⟩ := h n hn
  refine ⟨r, ?_, hf⟩
  exact (List.getElem?_append_left (List.getElem?_eq_some_iff.mp hr).choose).trans hr

theorem Move.sound {p q : Host} {a : Act} (h : Move p a q) (hp : p.Sound) : q.Sound := by
  cases h with
  | publish r _ => exact published_sound p r
  | refuse r _ => exact hp
  | found _ => exact hp
  | early _ _ => exact Sound.append hp _
  | start _ _ => exact hp
  | finishFull made _ _ => exact hp
  | finish made _ _ => exact published_sound p made
  | tryGet => exact hp
  | isPublished => exact hp
  | takeDown => nofun

theorem Move.instances {p q : Host} {a : Act} (h : Move p a q) : p.instances <+: q.instances := by
  cases h with
  | publish r _ => exact List.prefix_append ..
  | early _ _ => exact List.prefix_append ..
  | finish made _ _ => exact List.prefix_append ..
  | _ => exact List.prefix_refl _

theorem Move.atFull {p q : Host} {a : Act} (h : Move p a q) {n : Nat} (hn : p.slot = some n)
    (depth : Nat) : Step.AtFull ⟨depth, p, a, q⟩ n := by
  cases h with
  | publish r he => cases hn.symm.trans he
  | refuse r _ => exact ⟨rfl, rfl⟩
  | found hm => exact ⟨Option.some.inj (hm.symm.trans hn), rfl⟩
  | early he _ => cases hn.symm.trans he
  | start he _ => cases hn.symm.trans he
  | finishFull made _ hm => exact ⟨Option.some.inj (hm.symm.trans hn), hn⟩
  | finish made _ he => cases hn.symm.trans he
  | tryGet => exact ⟨hn, rfl⟩
  | isPublished => exact ⟨congrArg Option.isSome hn, rfl⟩
  | takeDown => exact ⟨hn, rfl⟩

theorem Move.atEmpty {p q : Host} {a : Act} (h : Move p a q) (he : p.slot = none) {depth : Nat}
    (hflag : p.initializing = true → (∀ r n, a ≠ .finish r n) → 0 < depth) :
    Step.AtEmpty ⟨depth, p, a, q⟩ := by
  cases h with
  | publish r _ => exact ⟨_, rfl, rfl, instance?_published p _⟩
  | refuse r hn => cases hn.symm.trans he
  | found hn => cases hn.symm.trans he
  | early _ hp =>
      refine ⟨hflag hp nofun, he, List.getElem?_eq_none (Nat.le_refl _), ?_⟩
      exact ⟨_, instance?_published p _, by decide +kernel, Registry.finalize_finalized _⟩
  | start _ _ => exact he
  | finishFull made _ hn => cases hn.symm.trans he
  | finish made _ _ => exact ⟨rfl, instance?_published p _⟩
  | tryGet => exact ⟨he, rfl⟩
  | isPublished => exact ⟨congrArg Option.isSome he, rfl⟩
  | takeDown => exact ⟨he, by rw [← he]⟩

theorem Move.filled {p q : Host} {a : Act} (h : Move p a q) (he : p.slot = none) {n : Nat}
    (hn : q.slot = some n) : ∃ r, a = .publish r (.ok n) ∨ a = .finish r n := by
  cases h with
  | publish r _ => exact ⟨r, .inl (by rw [Option.some.inj hn])⟩
  | finish made _ _ => exact ⟨made, .inr (by rw [Option.some.inj hn])⟩
  | takeDown => cases hn
  | _ => cases he.symm.trans hn

theorem Move.emptied {p q : Host} {a : Act} (h : Move p a q) {n : Nat} (hn : p.slot = some n)
    (he : q.slot = none) : a = .takeDown (some n) := by
  cases h with
  | publish r _ => cases he
  | finish made _ _ => cases he
  | takeDown => rw [hn]
  | _ => cases hn.symm.trans he

theorem Move.lawful {p q : Host} {a : Act} (h : Move p a q) (hp : p.Sound) {depth : Nat}
    (hinside : (∀ r n, a ≠ .finish r n) → (p.initializing ↔ 0 < depth))
    (houtside : ∀ r n, a = .finish r n → depth = 0) : Lawful ⟨depth, p, a, q⟩ := by
  constructor
  case sound => exact h.sound hp
  case instances => exact h.instances
  case full =>
      intro n hn
      exact h.atFull hn depth
  case empty =>
      intro he
      exact h.atEmpty he fun hraised hact => (hinside hact).mp hraised
  case filled =>
      intro he n hn
      exact h.filled he hn
  case emptied =>
      intro n hn he
      exact h.emptied hn he
  case outermost =>
      rintro r n (rfl | hact)
      · cases h with
        | start _ hidle =>
            have hnot : ¬ 0 < depth := by
              rw [← hinside nofun, hidle]
              exact Bool.false_ne_true
            exact Nat.eq_zero_of_not_pos hnot
      · exact houtside r n hact
  case flagBefore => exact hinside
  case flagAfter =>
      intro hact
      rw [h.initializing]
      cases a with
      | start => exact absurd rfl hact
      | finish r n => simp [houtside r n rfl]
      | _ => exact hinside nofun

/-- Some steps are lawful and end in a sound host, if they begin in one whose flag fits the depth. -/
def Keeps (depth : Nat) (p : Host) (steps : List Step) (e : Host) : Prop :=
  p.Sound → (p.initializing ↔ 0 < depth) → e.Sound ∧ ∀ s ∈ steps, Lawful s

theorem Keeps.nothing (depth : Nat) (p : Host) : Keeps depth p [] p :=
  fun hp _ => ⟨hp, List.forall_mem_nil _⟩

theorem Move.keeps {depth : Nat} {p q e : Host} {a : Act} {steps : List Step} (h : Move p a q)
    (hstart : a ≠ .start) (hfinish : ∀ r n, a ≠ .finish r n) (hrest : Keeps depth q steps e) :
    Keeps depth p (⟨depth, p, a, q⟩ :: steps) e := by
  intro hp hflag
  have hlaw := h.lawful hp (fun _ => hflag) fun r n hact => absurd hact (hfinish r n)
  obtain ⟨he, hsteps⟩ := hrest hlaw.sound (hlaw.flagAfter hstart)
  exact ⟨he, List.forall_mem_cons.mpr ⟨hlaw, hsteps⟩⟩

/-- An initializer runs one level deeper than the access it runs for, which is the outermost one. -/
theorem Move.keeps_between {depth n : Nat} {p i j q e : Host} {made : Registry}
    {inner steps : List Step} (hstart : Move p .start i) (hinner : Keeps (depth + 1) i inner j)
    (hfinish : Move j (.finish made n) q) (hrest : Keeps depth q steps e) :
    Keeps depth p (⟨depth, p, .start, i⟩ :: (inner ++ ⟨depth, j, .finish made n, q⟩ :: steps)) e := by
  intro hp hflag
  have hfirst := hstart.lawful hp (fun _ => hflag) nofun
  have hdepth : depth = 0 := hfirst.outermost made n (.inl rfl)
  have hraised : i.initializing ↔ 0 < depth + 1 := by simp [hstart.initializing]
  obtain ⟨hj, hsteps⟩ := hinner hfirst.sound hraised
  have hlast := hfinish.lawful hj (fun hact => absurd rfl (hact made n)) fun _ _ _ => hdepth
  obtain ⟨he, hlater⟩ := hrest hlast.sound (hlast.flagAfter nofun)
  refine ⟨he, List.forall_mem_cons.mpr ⟨hfirst, ?_⟩⟩
  exact List.forall_mem_append.mpr ⟨hsteps, List.forall_mem_cons.mpr ⟨hlast, hlater⟩⟩

theorem Runs.keeps {depth : Nat} {script : Script} {p e : Host} {steps : List Step}
    {answers : List Answer} (h : Runs depth script p steps answers e) : Keeps depth p steps e := by
  induction h with
  | stop depth p => exact .nothing depth p
  | publish hmove _ ih => exact hmove.keeps nofun nofun ih
  | get hmove _ ih => exact hmove.keeps nofun nofun ih
  | @getNew depth _ _ _ _ _ _ _ _ hstart hfinish _ ih =>
      exact hstart.keeps_between (.nothing (depth + 1) _) hfinish ih
  | getOrInit hmove _ ih => exact hmove.keeps nofun nofun ih
  | getOrInitNew hstart _ hfinish _ ihbody ihnext =>
      exact hstart.keeps_between ihbody hfinish ihnext
  | tryGet _ ih => exact (Move.tryGet _).keeps nofun nofun ih
  | isPublished _ ih => exact (Move.isPublished _).keeps nofun nofun ih
  | takeDown _ ih => exact (Move.takeDown _).keeps nofun nofun ih

/-- Whatever a thread does with the slot, in initializers and outside of them, every step of it is
lawful, and when it is done no initializer runs. -/
theorem run_lawful (script : Script) {p : Host} (hp : p.Sound) (hidle : p.initializing = false) :
    ∃ steps, Runs 0 script p steps (run script p).value.2 (run script p).value.1 ∧
      (∀ s ∈ steps, Lawful s) ∧ (run script p).value.1.Sound ∧
      (run script p).value.1.initializing = false := by
  obtain ⟨steps, hruns⟩ := run_runs script 0 p
  obtain ⟨hsound, hlawful⟩ := hruns.keeps hp (by simp [hidle])
  exact ⟨steps, hruns, hlawful, hsound, hruns.initializing.trans hidle⟩

/-- An initializer that accesses the slot, publishes, takes down and accesses it again. What it returns
is published as the fifth instance, and the last access makes the sixth. -/
theorem run_lawful_nested :
    let body : Script := .get (.getOrInit .stop (.empty {}) (.publish (.empty {}) (.get
      (.takeDown (.get .stop)))))
    let script : Script := .getOrInit body (.empty {}) (.publish (.empty {}) (.takeDown (.get .stop)))
    Sound {} ∧ ({} : Host).initializing = false ∧ (run script {}).value.1.slot = some 5 ∧
      (run script {}).value.1.instances.length = 6 ∧
      ∃ steps, Runs 0 script {} steps (run script {}).value.2 (run script {}).value.1 ∧
        (∀ s ∈ steps, Lawful s) ∧ (run script {}).value.1.Sound ∧
        (run script {}).value.1.initializing = false := by
  intro body script
  exact ⟨nofun, rfl, by decide +kernel, by decide +kernel, run_lawful script nofun rfl⟩

end TagTree.Host
