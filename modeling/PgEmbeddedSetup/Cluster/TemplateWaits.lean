import Mathlib.Order.RelClasses
import PgEmbeddedSetup.Base.Deadlock
import PgEmbeddedSetup.Cluster.Template

/-!
# Who waits in `ensure_template_exists`

The entry of the map keeps the lock of its shard for the whole call, the wait for the mutex and the
setup function included. So a call waits for every call in its shard, whatever its template, and a
setup function that ensures an earlier template of its own shard waits for itself.
`per_template_iff` shows that calls wait per template, and never for one another in a cycle, just
where no two of the templates in use share a shard.
-/

namespace PgEmbeddedSetup.Template

open Program Transition Interleave Database

/-! ### Waiting -/

inductive Lock where
  | shard (index : Nat)
  | mutex (name : DatabaseName)
  deriving DecidableEq, Repr

def Instr.name : Instr → DatabaseName
  | .entry name | .lock name | .databaseExists name | .createDatabase name
  | .setupReturned name _ | .unlock name _ | .release name | .returned name _ => name

/-- The names of the calls that a thread has entered and not left, the innermost first. -/
abbrev Calls := Nat → List DatabaseName

def noteCall (t : Nat) : Instr → Calls → Calls
  | .entry name, calls => Function.update calls t (name :: calls t)
  | .release _, calls => Function.update calls t (calls t).tail
  | _, calls => calls

abbrev System := Config Nat Instr Instr.Answer Outcome (State × Calls)

def next (shard : DatabaseName → Nat) : System → Nat × Reply → Option System :=
  step ((sem shard).recording noteCall)

/-- Each thread runs a client, which ensures templates like a setup function does. -/
def launch (clients : Nat → Setup) : System :=
  ⟨⟨State.init, fun _ => []⟩, fun t => (clients t).run none⟩

variable (shard : DatabaseName → Nat)

def locking : Locking Nat Instr (State × Calls) Lock where
  wants _ _
    | .entry name => some (.shard (shard name))
    | .lock name => some (.mutex name)
    | _ => none
  owner s
    | .shard index => s.1.shards index
    | .mutex name => s.1.mutexes name

/-- A call on a template takes two locks. -/
def TakenBy (name : DatabaseName) : Lock → Prop
  | .shard index => shard name = index
  | .mutex n => name = n

/-- The next instruction of a thread belongs to a call on `name`, and waits for a lock that was taken
by a call on `other`. -/
def WaitsForCall (c : System) (name other : DatabaseName) : Prop :=
  ∃ t i k l t', c.threads t = .exec i k ∧ i.name = name ∧
    (locking shard).wants c.state t i = some l ∧ (locking shard).owner c.state l = some t' ∧
    other ∈ c.state.2 t' ∧ TakenBy shard other l

/-- No calls wait for one another in a cycle, and each waits for calls on its own template only. -/
structure PerTemplate (c : System) : Prop where
  live : ¬ (locking shard).Deadlocked c
  same : ∀ name other, WaitsForCall shard c name other → other = name

/-- The templates are in use, and each setup function ensures templates strictly earlier than its
own, which is `outer`. -/
def Setup.Descends (earlier : DatabaseName → DatabaseName → Prop) (names : Set DatabaseName) :
    Option DatabaseName → Setup → Prop
  | _, .finish _ => True
  | outer, .ensure name setup next =>
    name ∈ names ∧ (∀ o ∈ outer, earlier name o) ∧ setup.Descends earlier names (some name) ∧
      ∀ r, (next r).Descends earlier names outer

/-! ### What a call holds -/

/-- How far a call is: it holds the lock of the shard throughout, and in between the mutex. -/
inductive Stage where
  | entered
  | locked
  | unlocked
  deriving DecidableEq, Repr

abbrev Stages := List (DatabaseName × Stage)

namespace Stages

def calls (l : Stages) : List DatabaseName := l.map Prod.fst

def shards (l : Stages) : List Nat := l.calls.map shard

def mutexes (l : Stages) : List DatabaseName :=
  calls (l.filter fun f => f.2 = .locked)

end Stages

section Spec

variable (earlier : DatabaseName → DatabaseName → Prop) (names : Set DatabaseName)

/-- What a thread knows are its calls and how far they are. -/
def stageSpec : Spec Instr Instr.Answer Stages
  | .entry name, l, Q => name ∈ names ∧ (∀ n ∈ l.calls, earlier name n) ∧ Q () ((name, .entered) :: l)
  | .lock name, l, Q => ∃ l' : Stages, l = (name, .entered) :: l' ∧ Q () ((name, .locked) :: l')
  | .unlock name _, l, Q => ∃ l' : Stages, l = (name, .locked) :: l' ∧ Q () ((name, .unlocked) :: l')
  | .release name, l, Q => ∃ l' : Stages, l = (name, .unlocked) :: l' ∧ Q () l'
  | .databaseExists _, l, Q => ∀ r, Q r l
  | .createDatabase _, l, Q => ∀ r, Q r l
  | .setupReturned _ _, l, Q => Q () l
  | .returned _ _, l, Q => Q () l

variable {earlier names}

theorem stageSpec_monotone : Spec.Monotone (stageSpec earlier names) := by
  intro i l Q Q' hQ h
  cases i with
  | entry name => exact ⟨h.1, h.2.1, hQ _ _ h.2.2⟩
  | lock name =>
    obtain ⟨l', hl, h⟩ := h
    exact ⟨l', hl, hQ _ _ h⟩
  | unlock name panicking =>
    obtain ⟨l', hl, h⟩ := h
    exact ⟨l', hl, hQ _ _ h⟩
  | release name =>
    obtain ⟨l', hl, h⟩ := h
    exact ⟨l', hl, hQ _ _ h⟩
  | databaseExists name => exact fun r => hQ _ _ (h r)
  | createDatabase name => exact fun r => hQ _ _ (h r)
  | setupReturned name r => exact hQ _ _ h
  | returned name r => exact hQ _ _ h

theorem stages_ensureTemplateExists {name : DatabaseName} {setupFn : Thread} {l : Stages}
    (hname : name ∈ names) (hearlier : ∀ n ∈ l.calls, earlier name n)
    (hsetup : wp (stageSpec earlier names) setupFn ((name, .locked) :: l)
      fun _ l' => l' = (name, .locked) :: l) :
    wp (stageSpec earlier names) (ensureTemplateExists name setupFn) l fun _ l' => l' = l := by
  refine ⟨hname, hearlier, l, rfl, ?_⟩
  show wp _ (createIfMissing name setupFn >>= _) _ _
  rw [wp_bind]
  refine wp_mono stageSpec_monotone (Q := fun _ l' => l' = (name, .locked) :: l) ?_ fun r => ?_
  · rintro r _ rfl
    exact ⟨l, rfl, l, rfl, rfl⟩
  cases r with
  | none => rfl
  | some found =>
    cases found with
    | true => rfl
    | false =>
      intro created
      cases created with
      | false => rfl
      | true => exact hsetup

theorem stages_setup [IsTrans DatabaseName earlier] {outer : Option DatabaseName} {setup : Setup}
    (h : setup.Descends earlier names outer) (database : Option DatabaseName) {l : Stages}
    (hhead : l.calls.head? = outer) (hsorted : l.calls.Pairwise earlier) :
    wp (stageSpec earlier names) (setup.run database) l fun _ l' => l' = l := by
  induction setup generalizing outer database l with
  | finish r => cases database <;> rfl
  | ensure name setup next ihSetup ihNext =>
    obtain ⟨hname, houter, hsetup, hnext⟩ := h
    -- the open calls are in descending order, so what is earlier than the innermost is below all
    have hearlier : ∀ n ∈ l.calls, earlier name n := by
      intro n hn
      cases hcalls : l.calls with
      | nil => exact absurd (hcalls ▸ hn) List.not_mem_nil
      | cons o rest =>
        rw [hcalls] at hn hhead hsorted
        have ho : earlier name o := houter o hhead.symm
        rcases List.mem_cons.mp hn with rfl | hn
        · exact ho
        · exact IsTrans.trans _ _ _ ho ((List.pairwise_cons.mp hsorted).1 n hn)
    show wp _ (ensureTemplateExists name (setup.run (some name)) >>= _) _ _
    rw [wp_bind]
    refine wp_mono stageSpec_monotone (fun r l' hl' => ?_)
      (stages_ensureTemplateExists hname hearlier
        (ihSetup hsetup (some name) rfl (List.pairwise_cons.mpr ⟨hearlier, hsorted⟩)))
    subst hl'
    exact ihNext r (hnext r) database hhead hsorted

end Spec

/-! ### The invariant -/

/-- The locks and the open calls are what the threads know of them. -/
structure Holding (names : Set DatabaseName) (s : State × Calls) (know : Nat → Stages) :
    Prop where
  shards : Held s.1.shards fun t => (know t).shards shard
  mutexes : Held s.1.mutexes fun t => (know t).mutexes
  calls : ∀ t, s.2 t = (know t).calls
  names : ∀ t, ∀ n ∈ (know t).calls, n ∈ names

section Holding

variable {shard} {earlier : DatabaseName → DatabaseName → Prop} {names : Set DatabaseName}
  {s : State × Calls} {know : Nat → Stages} {t : Nat} {l : Stages}

theorem Stages.calls_of_mutexes {name : DatabaseName} (h : name ∈ l.mutexes) : name ∈ l.calls :=
  (List.filter_sublist.map Prod.fst).subset h

theorem Holding.within (h : Holding shard names s know) (hcalls : l.calls = (know t).calls)
    {s' : State} (hshards : s'.shards = s.1.shards)
    (hmutexes : Held s'.mutexes fun t' => (Function.update know t l t').mutexes) :
    Holding shard names (s', s.2) (Function.update know t l) := by
  have hknow : ∀ t', (Function.update know t l t').calls = (know t').calls := by
    intro t'
    by_cases ht : t' = t
    · subst ht
      rw [Function.update_self, hcalls]
    · rw [Function.update_of_ne ht]
  refine ⟨?_, hmutexes, fun t' => hknow t' ▸ h.calls t', fun t' => hknow t' ▸ h.names t'⟩
  have hl : l.shards shard = (know t).shards shard := congrArg (List.map shard) hcalls
  show Held s'.shards _
  rw [hshards]
  exact h.shards.keep hl

theorem Holding.enter (h : Holding shard names s know) {name : DatabaseName} (hname : name ∈ names)
    (hfree : s.1.shards (shard name) = none) :
    Holding shard names
      ({ s.1 with shards := Function.update s.1.shards (shard name) (some t) },
        noteCall t (.entry name) s.2)
      (Function.update know t ((name, .entered) :: know t)) := by
  refine ⟨h.shards.push hfree rfl, h.mutexes.keep rfl, fun t' => ?_, fun t' n hn => ?_⟩
  · by_cases ht : t' = t
    · subst ht
      simp only [noteCall, Function.update_self, h.calls]
      rfl
    · simp only [noteCall, Function.update_of_ne ht, h.calls]
  · by_cases ht : t' = t
    · subst ht
      rw [Function.update_self] at hn
      rcases List.mem_cons.mp hn with rfl | hn
      · exact hname
      · exact h.names t' n hn
    · rw [Function.update_of_ne ht] at hn
      exact h.names t' n hn

theorem Holding.leave (h : Holding shard names s know) {name : DatabaseName}
    (hl : know t = (name, .unlocked) :: l) :
    Holding shard names
      ({ s.1 with shards := Function.update s.1.shards (shard name) none },
        noteCall t (.release name) s.2)
      (Function.update know t l) := by
  have hcalls : (know t).calls = name :: l.calls := hl ▸ rfl
  refine ⟨h.shards.pop (hl ▸ rfl), h.mutexes.keep (hl ▸ rfl), fun t' => ?_, fun t' n hn => ?_⟩
  · by_cases ht : t' = t
    · subst ht
      simp only [noteCall, Function.update_self, h.calls, hcalls, List.tail_cons]
    · simp only [noteCall, Function.update_of_ne ht, h.calls]
  · by_cases ht : t' = t
    · subst ht
      rw [Function.update_self] at hn
      exact h.names t' n (hcalls ▸ List.mem_cons_of_mem _ hn)
    · rw [Function.update_of_ne ht] at hn
      exact h.names t' n hn

/-- The mutex of a call that has entered is free: its owner would be in the same shard. -/
theorem Holding.mutex_free (h : Holding shard names s know) {name : DatabaseName}
    (hl : know t = (name, .entered) :: l) : s.1.mutexes name = none := by
  cases howner : s.1.mutexes name with
  | none => rfl
  | some t' =>
    have hmem : name ∈ (know t').mutexes := (h.mutexes.owner_iff t' name).1 howner
    have hshards : (know t).shards shard = shard name :: l.shards shard := hl ▸ rfl
    obtain rfl : t' = t :=
      h.shards.unique (hshards ▸ List.mem_cons_self)
        (List.mem_map.mpr ⟨name, Stages.calls_of_mutexes hmem, rfl⟩)
    have hnodup := h.shards.nodup t'
    rw [hshards, List.nodup_cons] at hnodup
    rw [hl] at hmem
    exact absurd (List.mem_map.mpr ⟨name, Stages.calls_of_mutexes (l := l) hmem, rfl⟩) hnodup.1

theorem stageSpec_sound :
    Sound ((sem shard).recording noteCall) (stageSpec earlier names) (Holding shard names)
      fun _ _ _ _ => True := by
  intro t i x s know r s' hJ _ hstep Q hspec
  obtain ⟨⟨r₁, s₁⟩, hsem, heq⟩ := Option.map_eq_some_iff.mp hstep
  clear hstep
  cases heq
  have hsame : ∀ s₂ : State, s₂.shards = s.1.shards → s₂.mutexes = s.1.mutexes →
      Holding shard names (s₂, s.2) (Function.update know t (know t)) := by
    intro s₂ hshards hmutexes
    refine hJ.within rfl hshards ?_
    rw [hmutexes]
    exact hJ.mutexes.keep rfl
  cases i with
  | entry name =>
    obtain ⟨hname, -, hQ⟩ := hspec
    simp only [sem] at hsem
    split at hsem
    next hfree =>
      cases hsem
      exact ⟨_, hQ, hJ.enter hname hfree⟩
    next => cases hsem
  | lock name =>
    obtain ⟨l, hl, hQ⟩ := hspec
    simp only [sem] at hsem
    split at hsem
    next hfree =>
      cases hsem
      exact ⟨_, hQ, hJ.within (hl ▸ rfl) rfl (hJ.mutexes.push hfree (hl ▸ rfl))⟩
    next => cases hsem
  | databaseExists name =>
    cases hsem
    exact ⟨_, hspec _, hsame _ rfl rfl⟩
  | createDatabase name =>
    obtain ⟨server, -, heq⟩ := Option.map_eq_some_iff.mp hsem
    cases heq
    exact ⟨_, hspec _, hsame _ rfl rfl⟩
  | setupReturned name outcome =>
    cases hsem
    refine ⟨_, hspec, ?_⟩
    split <;> exact hsame _ rfl rfl
  | unlock name panicking =>
    obtain ⟨l, hl, hQ⟩ := hspec
    cases hsem
    exact ⟨_, hQ, hJ.within (hl ▸ rfl) rfl (hJ.mutexes.pop (hl ▸ rfl))⟩
  | release name =>
    obtain ⟨l, hl, hQ⟩ := hspec
    cases hsem
    exact ⟨_, hQ, hJ.leave hl⟩
  | returned name outcome =>
    cases hsem
    exact ⟨_, hspec, hsame _ rfl rfl⟩

theorem holding_init : Holding shard names ⟨State.init, fun _ => []⟩ fun _ => [] :=
  ⟨Held.nothing, Held.nothing, fun _ => rfl, fun _ _ hn => absurd hn List.not_mem_nil⟩

/-! ### Waits where no two templates share a shard -/

/-- The threads hold what they know to hold, and go on in descending order. -/
abbrev Descending (shard : DatabaseName → Nat) (earlier : DatabaseName → DatabaseName → Prop)
    (names : Set DatabaseName) : System → Prop :=
  Known (stageSpec earlier names) (Holding shard names) fun _ _ _ => True

theorem descending_launch [IsTrans DatabaseName earlier] {clients : Nat → Setup}
    (hclients : ∀ t, (clients t).Descends earlier names none) :
    Descending shard earlier names (launch clients) :=
  ⟨_, holding_init, fun t => wp_mono stageSpec_monotone (fun _ _ _ => trivial)
    (stages_setup (hclients t) none rfl List.Pairwise.nil)⟩

/-- A thread that waits is about to enter a call, and waits for a call on the same template. -/
theorem waits_entry (hshard : Set.InjOn shard names) {c : System} {know : Nat → Stages}
    (hJ : Holding shard names c.state know)
    (hwp : ∀ t, wp (stageSpec earlier names) (c.threads t) (know t) fun _ _ => True)
    {t t' : Nat} {i : Instr} {k : i.Answer → Thread} {l : Lock}
    (hthread : c.threads t = .exec i k) (hwants : (locking shard).wants c.state t i = some l)
    (howner : (locking shard).owner c.state l = some t') :
    i.name ∈ (know t').calls ∧ l = .shard (shard i.name) ∧ i.name ∈ names ∧
      ∀ n ∈ (know t).calls, earlier i.name n := by
  have hspec := hwp t
  rw [hthread] at hspec
  cases i with
  | entry name =>
    obtain ⟨hname, hearlier, -⟩ := hspec
    cases hwants
    have hmem : shard name ∈ (know t').shards shard := (hJ.shards.owner_iff t' _).1 howner
    obtain ⟨n, hn, heq⟩ := List.mem_map.mp hmem
    exact ⟨hshard (hJ.names t' n hn) hname heq ▸ hn, rfl, hname, hearlier⟩
  | lock name =>
    obtain ⟨l', hl, -⟩ := hspec
    cases hwants
    exact absurd (howner.symm.trans (hJ.mutex_free hl)) nofun
  | _ => cases hwants

end Holding

variable {shard} {earlier : DatabaseName → DatabaseName → Prop} {names : Set DatabaseName}

theorem perTemplate_of_descending [IsStrictOrder DatabaseName earlier]
    (hshard : Set.InjOn shard names) {c : System} (h : Descending shard earlier names c) :
    PerTemplate shard c := by
  obtain ⟨know, hJ, hwp⟩ := h
  constructor
  · -- a thread that is waited for and waits itself wants an earlier template than it is waited for
    refine Locking.not_deadlocked (r := earlier)
      (fun t => match c.threads t with | .exec i _ => i.name | .ret _ => "") ?_
    rintro t t' t'' ⟨l, ⟨i, k, hthread, hwants⟩, howner⟩ ⟨l', ⟨i', k', hthread', hwants'⟩, howner'⟩
    obtain ⟨hcall, -⟩ := waits_entry hshard hJ hwp hthread hwants howner
    obtain ⟨-, -, -, hearlier⟩ := waits_entry hshard hJ hwp hthread' hwants' howner'
    simp only [hthread, hthread']
    exact hearlier _ hcall
  · rintro name other ⟨t, i, k, l, t', hthread, rfl, hwants, howner, hother, htaken⟩
    obtain ⟨-, rfl, hname, -⟩ := waits_entry hshard hJ hwp hthread hwants howner
    exact hshard (hJ.names t' other (hJ.calls t' ▸ hother)) hname htaken

theorem waitsForCall_of_collision {name other : DatabaseName} (h : shard name = shard other) :
    ∃ c, run (next shard) [(0, .done)]
        (launch fun t => .ensure (if t = 0 then other else name) (.finish .ok) .finish) = some c ∧
      WaitsForCall shard c name other := by
  refine ⟨_, rfl, 1, .entry name, _, .shard (shard name), 0, rfl, rfl, rfl, ?_,
    List.mem_cons_self, h.symm⟩
  show Function.update (fun _ => none) (shard other) (some 0) (shard name) = some 0
  rw [h, Function.update_self]

/-- **Calls wait per template just where no two templates share a shard.** For every order of the
templates, and all threads whose setup functions descend in it, no interleaving of calls on the
templates in use reaches a deadlock or has a call wait for a call on another template, if and only
if the templates in use fall in different shards. -/
theorem per_template_iff (shard : DatabaseName → Nat) (names : Set DatabaseName) :
    (∀ earlier : DatabaseName → DatabaseName → Prop, IsStrictOrder DatabaseName earlier →
      ∀ clients : Nat → Setup, (∀ t, (clients t).Descends earlier names none) →
      ∀ events c, run (next shard) events (launch clients) = some c → PerTemplate shard c) ↔
    Set.InjOn shard names := by
  constructor
  · intro h name hname other hother hshard
    obtain ⟨c, hrun, hwaits⟩ := waitsForCall_of_collision hshard
    have hnone : IsStrictOrder DatabaseName fun _ _ => False :=
      { irrefl := fun _ => id, trans := fun _ _ _ h => h.elim }
    refine ((h _ hnone _ (fun t => ?_) _ c hrun).same name other hwaits).symm
    refine ⟨?_, nofun, trivial, fun _ => trivial⟩
    show (if t = 0 then other else name) ∈ names
    split
    · exact hother
    · exact hname
  · intro hshard earlier _ clients hclients events c hrun
    have hspec : Sound ((sem shard).recording noteCall) (stageSpec earlier names)
        (Holding shard names) fun _ _ _ _ => True := stageSpec_sound
    have hsound := run_sound hspec (descending_launch hclients)
      (along_of_mem (fun _ _ _ _ _ _ => trivial) _) hrun
    exact perTemplate_of_descending hshard hsound

/-- The setup function of "b" ensures the earlier "a", and so do other threads. -/
def twoTemplates (t : Nat) : Setup :=
  if t = 0 then .ensure "b" (.ensure "a" (.finish .ok) .finish) .finish
  else .ensure "a" (.finish .ok) .finish

/-- With both templates in one shard, the setup function of "b" waits for its own thread, and the call
on "a" of another thread waits for the call on "b". -/
theorem templates_in_one_shard :
    (∀ t, (twoTemplates t).Descends (· < ·) Set.univ none) ∧
    ∃ c, run (next fun _ => 0) (List.replicate 4 (0, .done)) (launch twoTemplates) = some c ∧
      (locking fun _ => 0).Deadlocked c ∧ WaitsForCall (fun _ => 0) c "a" "b" := by
  refine ⟨fun t => ?_, _, rfl, ?_, ?_⟩
  · unfold twoTemplates
    split
    · refine ⟨trivial, nofun, ⟨trivial, fun o ho => ?_, trivial, fun _ => trivial⟩,
        fun _ => trivial⟩
      cases ho
      decide
    · exact ⟨trivial, nofun, trivial, fun _ => trivial⟩
  · exact ⟨0, .single ⟨.shard 0, ⟨.entry "a", _, rfl, rfl⟩, rfl⟩⟩
  · exact ⟨1, .entry "a", _, .shard 0, 0, rfl, rfl, rfl, rfl, List.mem_cons_self, rfl⟩

end PgEmbeddedSetup.Template
