import PgEmbeddedSetup.Base.Deadlock
import PgEmbeddedSetup.Cluster.Template

/-!
# Ensured templates are set up

The invariant behind `ensured_templates_ready` has two parts. `Locks`: a mutex is held by the one
thread that has a frame for the name. `Facts`: what the frames say of the databases is true, and a
database on which no setup function has completed has one running, in a thread that holds the lock.
-/

namespace PgEmbeddedSetup.Template

open Program Transition Interleave Database

theorem frames_update {know : Nat → Knowledge} {t t' : Nat} {l : Knowledge}
    {a : DatabaseName × Frame} (h : a ∈ (Function.update know t l t').frames) :
    t' = t ∧ a ∈ l.frames ∨ t' ≠ t ∧ a ∈ (know t').frames := by
  by_cases ht : t' = t
  · subst ht
    rw [Function.update_self] at h
    exact Or.inl ⟨rfl, h⟩
  · rw [Function.update_of_ne ht] at h
    exact Or.inr ⟨ht, h⟩

/-! ### Locks -/

def Knowledge.names (l : Knowledge) : List DatabaseName := l.frames.map Prod.fst

theorem Knowledge.mem_names {l : Knowledge} {name : DatabaseName} {f : Frame}
    (h : (name, f) ∈ l.frames) : name ∈ l.names :=
  List.mem_map.mpr ⟨_, h, rfl⟩

structure Locks (mutexes : DatabaseName → Option Nat) (know : Nat → Knowledge) : Prop where
  nodup : ∀ t, (know t).names.Nodup
  mutex : ∀ t name, name ∈ (know t).names ↔ mutexes name = some t

section Locks

variable {mutexes : DatabaseName → Option Nat} {know : Nat → Knowledge} {t : Nat}

theorem Locks.unique (h : Locks mutexes know) {t' : Nat} {name : DatabaseName} {f f' : Frame}
    (hf : (name, f) ∈ (know t).frames) (hf' : (name, f') ∈ (know t').frames) : t' = t ∧ f' = f := by
  have ht := (h.mutex t name).1 (Knowledge.mem_names hf)
  have ht' := (h.mutex t' name).1 (Knowledge.mem_names hf')
  obtain rfl : t' = t := Option.some.inj (ht'.symm.trans ht)
  refine ⟨rfl, ?_⟩
  have := List.inj_on_of_nodup_map (h.nodup t') hf' hf rfl
  exact congrArg Prod.snd this

theorem locks_iff_held : Locks mutexes know ↔ Held mutexes fun t => (know t).names :=
  ⟨fun h => ⟨h.nodup, fun t name => (h.mutex t name).symm⟩,
    fun h => ⟨h.nodup, fun t name => (h.owner_iff t name).symm⟩⟩

theorem Locks.rename (h : Locks mutexes know) {l : Knowledge} (hl : l.names = (know t).names) :
    Locks mutexes (Function.update know t l) :=
  locks_iff_held.mpr ((locks_iff_held.mp h).keep hl)

theorem Locks.push (h : Locks mutexes know) {name : DatabaseName} (hfree : mutexes name = none)
    (f : Frame) :
    Locks (Function.update mutexes name (some t))
      (Function.update know t ((know t).push name f)) :=
  locks_iff_held.mpr ((locks_iff_held.mp h).push hfree rfl)

theorem Locks.pop (h : Locks mutexes know) {name : DatabaseName} {f : Frame} {l : Knowledge}
    (hl : know t = l.push name f) :
    Locks (Function.update mutexes name none) (Function.update know t l) := by
  have hcons : (know t).names = name :: l.names := by rw [hl]; rfl
  exact locks_iff_held.mpr ((locks_iff_held.mp h).pop hcons)

/-! A thread changes what it knows of the name that it locked last. -/

variable {name : DatabaseName} {g g' : Frame} {l l' : Knowledge}

theorem retop_other (hl : know t = l.push name g) (hl' : l'.frames = (name, g') :: l.frames)
    {t' : Nat} {n : DatabaseName} {f : Frame} (hn : n ≠ name) :
    (n, f) ∈ (Function.update know t l' t').frames ↔ (n, f) ∈ (know t').frames := by
  by_cases ht : t' = t
  · subst ht
    have hold : (know t').frames = (name, g) :: l.frames := by rw [hl]; rfl
    rw [Function.update_self, hl', hold, List.mem_cons, List.mem_cons]
    exact ⟨fun h => Or.inr (h.resolve_left fun heq => hn (congrArg Prod.fst heq)),
      fun h => Or.inr (h.resolve_left fun heq => hn (congrArg Prod.fst heq))⟩
  · rw [Function.update_of_ne ht]

theorem Locks.retop_self (h : Locks mutexes know) (hl : know t = l.push name g)
    (hl' : l'.frames = (name, g') :: l.frames) {t' : Nat} {f : Frame}
    (hf : (name, f) ∈ (Function.update know t l' t').frames) : f = g' := by
  have htop : (name, g) ∈ (know t).frames := hl ▸ List.mem_cons_self
  rcases frames_update hf with ⟨rfl, hmem⟩ | ⟨ht, hmem⟩
  · rcases List.mem_cons.mp (hl' ▸ hmem) with heq | hmem
    · exact congrArg Prod.snd heq
    · have hnodup := h.nodup t'
      rw [hl] at hnodup
      exact absurd (Knowledge.mem_names hmem) (List.nodup_cons.mp hnodup).1
  · exact absurd (h.unique htop hmem).1 ht

end Locks

/-! ### Facts -/

structure Facts (s : State) (know : Nat → Knowledge) : Prop where
  absent : ∀ t name, (name, .absent) ∈ (know t).frames → s.server.databases name = none
  created : ∀ t name, (name, .created) ∈ (know t).frames →
    ∃ id, s.server.databases name = some id ∧ id ∉ s.completed
  ready : ∀ t, ∀ name ∈ (know t).ready, s.Ready name
  recorded : ∀ name id, s.server.databases name = some id →
    id ∈ s.completed ∨ ∃ t, (name, .created) ∈ (know t).frames
  once : s.completed.Nodup
  old : ∀ id ∈ s.completed, id < s.server.created
  bound : ∀ name id, s.server.databases name = some id → id < s.server.created
  injective : ∀ name name' id, s.server.databases name = some id →
    s.server.databases name' = some id → name = name'

/-- The state has the same databases, and setup functions have completed on the same ones. -/
def State.SameData (s s' : State) : Prop :=
  s'.server = s.server ∧ s'.completed = s.completed

section Facts

variable {s s' : State} {know : Nat → Knowledge} {t : Nat}

theorem Facts.sameData (h : Facts s know) (hs : s.SameData s') : Facts s' know := by
  obtain ⟨server, shards, mutexes, poisoned, completed⟩ := s
  obtain ⟨server', shards', mutexes', poisoned', completed'⟩ := s'
  obtain ⟨rfl, rfl⟩ := hs
  exact ⟨h.absent, h.created, h.ready, h.recorded, h.once, h.old, h.bound, h.injective⟩

theorem ready_update {l : Knowledge} (h : Facts s know)
    (hl : ∀ name ∈ l.ready, s.Ready name) {t' : Nat} {name : DatabaseName}
    (hname : name ∈ (Function.update know t l t').ready) : s.Ready name := by
  by_cases ht : t' = t
  · subst ht
    rw [Function.update_self] at hname
    exact hl name hname
  · rw [Function.update_of_ne ht] at hname
    exact h.ready t' name hname

theorem Facts.learn (h : Facts s know) {l : Knowledge}
    (hkeep : ∀ name, (name, .created) ∈ (know t).frames → (name, .created) ∈ l.frames)
    (habsent : ∀ name, (name, .absent) ∈ l.frames → s.server.databases name = none)
    (hcreated : ∀ name, (name, .created) ∈ l.frames → (name, .created) ∈ (know t).frames)
    (hready : ∀ name ∈ l.ready, s.Ready name) : Facts s (Function.update know t l) := by
  refine ⟨fun t' name hf => ?_, fun t' name hf => ?_, fun t' name hname => ?_, fun name id hid => ?_,
    h.once, h.old, h.bound, h.injective⟩
  · rcases frames_update hf with ⟨-, hf⟩ | ⟨-, hf⟩
    · exact habsent name hf
    · exact h.absent t' name hf
  · rcases frames_update hf with ⟨-, hf⟩ | ⟨-, hf⟩
    · exact h.created t name (hcreated name hf)
    · exact h.created t' name hf
  · exact ready_update h hready hname
  · refine (h.recorded name id hid).imp_right fun ⟨t', hf⟩ => ⟨t', ?_⟩
    by_cases ht : t' = t
    · subst ht
      rw [Function.update_self]
      exact hkeep name hf
    · rwa [Function.update_of_ne ht]

/-- A database whose name a thread has locked, without creating it, has been set up. -/
theorem Facts.ready_of_locked (h : Facts s know) {mutexes : DatabaseName → Option Nat}
    (hlocks : Locks mutexes know) {name : DatabaseName}
    (hf : (name, .locked) ∈ (know t).frames) {id : DatabaseId}
    (hid : s.server.databases name = some id) : s.Ready name := by
  refine ⟨id, hid, (h.recorded name id hid).resolve_right fun ⟨t', hf'⟩ => ?_⟩
  cases (hlocks.unique hf hf').2

theorem Facts.create (h : Facts s know) {mutexes : DatabaseName → Option Nat}
    (hlocks : Locks mutexes know) {name : DatabaseName} {l : Knowledge}
    (hl : know t = l.push name .absent) :
    Facts { s with server := s.server.create name }
      (Function.update know t (l.push name .created)) := by
  have hnone : s.server.databases name = none := h.absent t name (hl ▸ List.mem_cons_self)
  have hfresh : s.server.created ∉ s.completed := fun hmem => lt_irrefl _ (h.old _ hmem)
  have hother : ∀ {t' n f}, n ≠ name → ((n, f) ∈ (Function.update know t
      (l.push name .created) t').frames ↔ (n, f) ∈ (know t').frames) :=
    retop_other hl (rfl : (l.push name .created).frames = (name, Frame.created) :: l.frames)
  refine ⟨fun t' n hf => ?_, fun t' n hf => ?_, fun t' n hn => ?_, fun n id hid => ?_, h.once,
    fun id hid => Nat.lt_succ_of_lt (h.old id hid), fun n id hid => ?_, fun n n' id hid hid' => ?_⟩
  · by_cases hn : n = name
    · subst hn
      cases hlocks.retop_self hl rfl hf
    · rw [create_databases, if_neg hn]
      exact h.absent t' n ((hother hn).1 hf)
  · by_cases hn : n = name
    · subst hn
      exact ⟨_, by rw [create_databases, if_pos rfl], hfresh⟩
    · simp only [create_databases, if_neg hn]
      exact h.created t' n ((hother hn).1 hf)
  · have hold : ∀ n ∈ (l.push name .created).ready, s.Ready n := fun n hn =>
      h.ready t n (hl ▸ hn)
    obtain ⟨id, hid, hmem⟩ := ready_update h hold hn
    have hne : n ≠ name := fun heq => by rw [heq, hnone] at hid; cases hid
    exact ⟨id, by rw [create_databases, if_neg hne, hid], hmem⟩
  · by_cases hn : n = name
    · subst hn
      exact Or.inr ⟨t, by rw [Function.update_self]; exact List.mem_cons_self⟩
    · rw [create_databases, if_neg hn] at hid
      exact (h.recorded n id hid).imp_right fun ⟨t', hf⟩ => ⟨t', (hother hn).2 hf⟩
  · rw [create_databases] at hid
    split at hid
    · rw [← Option.some.inj hid]
      exact Nat.lt_succ_self _
    · exact Nat.lt_succ_of_lt (h.bound n id hid)
  · rw [create_databases] at hid hid'
    split at hid <;> split at hid'
    next hn hn' => rw [hn, hn']
    next =>
      have := h.bound n' id hid'
      rw [← Option.some.inj hid] at this
      exact absurd this (lt_irrefl _)
    next =>
      have := h.bound n id hid
      rw [← Option.some.inj hid'] at this
      exact absurd this (lt_irrefl _)
    next => exact h.injective n n' id hid hid'

theorem Facts.complete (h : Facts s know) {mutexes : DatabaseName → Option Nat}
    (hlocks : Locks mutexes know) {name : DatabaseName} {l : Knowledge}
    (hl : know t = l.push name .created) :
    Facts (s.complete name)
      (Function.update know t ((l.push name .locked).learn name)) := by
  obtain ⟨id, hid, hnew⟩ := h.created t name (hl ▸ List.mem_cons_self)
  have hcompleted : (s.complete name).completed = s.completed ++ [id] := by
    rw [State.complete, hid]
    rfl
  have hready : ∀ n, s.Ready n → (s.complete name).Ready n := fun n ⟨id', hid', hmem⟩ =>
    ⟨id', hid', hcompleted ▸ List.mem_append_left _ hmem⟩
  have hname : (s.complete name).Ready name :=
    ⟨id, hid, hcompleted ▸ List.mem_append_right _ (List.mem_singleton_self id)⟩
  have hother : ∀ {t' n f}, n ≠ name → ((n, f) ∈ (Function.update know t
      ((l.push name .locked).learn name) t').frames ↔ (n, f) ∈ (know t').frames) :=
    retop_other hl (rfl : ((l.push name .locked).learn name).frames = (name, Frame.locked) :: l.frames)
  refine ⟨fun t' n hf => ?_, fun t' n hf => ?_, fun t' n hn => ?_, fun n id' hid' => ?_, ?_,
    fun id' hmem => ?_, h.bound, h.injective⟩
  · by_cases hn : n = name
    · subst hn
      cases hlocks.retop_self hl rfl hf
    · exact h.absent t' n ((hother hn).1 hf)
  · by_cases hn : n = name
    · subst hn
      cases hlocks.retop_self hl rfl hf
    · obtain ⟨id', hid', hmem⟩ := h.created t' n ((hother hn).1 hf)
      refine ⟨id', hid', fun hmem' => ?_⟩
      rw [hcompleted, List.mem_append, List.mem_singleton] at hmem'
      rcases hmem' with hmem' | rfl
      · exact hmem hmem'
      · exact hn (h.injective n name id' hid' hid)
  · by_cases hn' : n = name
    · exact hn' ▸ hname
    · refine hready n ?_
      by_cases ht : t' = t
      · subst ht
        rw [Function.update_self] at hn
        exact h.ready t' n (hl ▸ (List.mem_cons.mp hn).resolve_left hn')
      · rw [Function.update_of_ne ht] at hn
        exact h.ready t' n hn
  · rw [hcompleted]
    by_cases hn : n = name
    · subst hn
      obtain rfl : id = id' := Option.some.inj (hid.symm.trans hid')
      exact Or.inl (List.mem_append_right _ (List.mem_singleton_self id))
    · exact (h.recorded n id' hid').imp (List.mem_append_left _)
        fun ⟨t', hf⟩ => ⟨t', (hother hn).2 hf⟩
  · rw [hcompleted, List.nodup_append]
    refine ⟨h.once, List.nodup_singleton id, fun a ha b hb heq => ?_⟩
    rw [List.mem_singleton] at hb
    exact hnew (hb ▸ heq ▸ ha)
  · rw [hcompleted, List.mem_append, List.mem_singleton] at hmem
    rcases hmem with hmem | rfl
    · exact h.old id' hmem
    · exact h.bound name id' hid

end Facts

/-! ### Instructions -/

def Invariant (s : State) (know : Nat → Knowledge) : Prop :=
  Locks s.mutexes know ∧ Facts s know

section Instructions

variable {s : State} {know : Nat → Knowledge} {t : Nat} {name : DatabaseName}

theorem Invariant.keep (h : Invariant s know) {s' : State} (hmutexes : s'.mutexes = s.mutexes)
    (hs : s.SameData s') : Invariant s' (Function.update know t (know t)) := by
  rw [Function.update_eq_self]
  exact ⟨hmutexes ▸ h.1, h.2.sameData hs⟩

theorem invariant_lock (h : Invariant s know) (hfree : s.mutexes name = none) :
    Invariant { s with mutexes := Function.update s.mutexes name (some t) }
      (Function.update know t ((know t).push name .locked)) := by
  obtain ⟨hlocks, hfacts⟩ := h
  have hold : ∀ n f, (n, f) ∈ ((know t).push name .locked).frames → f ≠ .locked →
      (n, f) ∈ (know t).frames := by
    intro n f hn hf
    rcases List.mem_cons.mp hn with heq | hn
    · exact absurd (congrArg Prod.snd heq) hf
    · exact hn
  refine ⟨hlocks.push hfree .locked, Facts.sameData (hfacts.learn (fun n => List.mem_cons_of_mem _)
    (fun n hn => ?_) (fun n hn => hold n _ hn nofun) (hfacts.ready t)) ⟨rfl, rfl⟩⟩
  exact hfacts.absent t n (hold n _ hn nofun)

theorem invariant_found (h : Invariant s know) {l : Knowledge} (hl : know t = l.push name .locked)
    {id : DatabaseId} (hdb : s.server.databases name = some id) :
    Invariant s (Function.update know t ((l.push name .locked).learn name)) := by
  obtain ⟨hlocks, hfacts⟩ := h
  have htop : (name, Frame.locked) ∈ (know t).frames := hl ▸ List.mem_cons_self
  refine ⟨hlocks.rename (by rw [hl]; rfl), hfacts.learn (fun n hn => hl ▸ hn)
    (fun n hn => hfacts.absent t n (hl ▸ hn)) (fun n hn => hl ▸ hn) fun n hn => ?_⟩
  rcases List.mem_cons.mp hn with rfl | hn
  · exact hfacts.ready_of_locked hlocks htop hdb
  · exact hfacts.ready t n (hl ▸ hn)

theorem invariant_absent (h : Invariant s know) {l : Knowledge} (hl : know t = l.push name .locked)
    (hdb : s.server.databases name = none) :
    Invariant s (Function.update know t (l.push name .absent)) := by
  obtain ⟨hlocks, hfacts⟩ := h
  refine ⟨hlocks.rename (by rw [hl]; rfl), hfacts.learn (fun n hn => ?_) (fun n hn => ?_)
    (fun n hn => ?_) fun n hn => hfacts.ready t n (hl ▸ hn)⟩
  · rcases List.mem_cons.mp (hl ▸ hn) with heq | hn
    · cases heq
    · exact List.mem_cons_of_mem _ hn
  · rcases List.mem_cons.mp hn with heq | hn
    · cases heq
      exact hdb
    · exact hfacts.absent t n (hl ▸ List.mem_cons_of_mem _ hn)
  · rcases List.mem_cons.mp hn with heq | hn
    · cases heq
    · exact hl ▸ List.mem_cons_of_mem _ hn

theorem invariant_unlock (h : Invariant s know) {l : Knowledge} {f : Frame}
    (hl : know t = l.push name f) (hf : f ≠ .created) {s' : State}
    (hmutexes : s'.mutexes = Function.update s.mutexes name none) (hs : s.SameData s') :
    Invariant s' (Function.update know t l) := by
  obtain ⟨hlocks, hfacts⟩ := h
  refine ⟨hmutexes ▸ hlocks.pop hl, Facts.sameData (hfacts.learn (fun n hn => ?_)
    (fun n hn => hfacts.absent t n (hl ▸ List.mem_cons_of_mem _ hn))
    (fun n hn => hl ▸ List.mem_cons_of_mem _ hn) fun n hn => hfacts.ready t n (hl ▸ hn)) hs⟩
  rcases List.mem_cons.mp (hl ▸ hn) with heq | hn
  · exact absurd (congrArg Prod.snd heq).symm hf
  · exact hn

theorem create_of_answer {x : Reply} {server : Server} (hx : x = .done)
    (h : s.server.answer (.createDatabase name) x = some server) : server = s.server.create name := by
  rcases answer_cases h with ⟨-, hno | ⟨hno, -⟩⟩ | ⟨n, hn, -, hs'⟩ | ⟨n, id, hq, -⟩
  · cases hx.symm.trans hno
  · cases hno
  · rw [hs', ← Option.some.inj hn]
  · cases hq

end Instructions

theorem spec_sound (shard : DatabaseName → Nat) :
    Sound (sem shard) spec Invariant SetupSucceeds := by
  intro t i x s know r s' h hcond hsem Q hspec
  cases i with
  | entry name =>
    simp only [sem] at hsem
    split at hsem
    · cases hsem
      exact ⟨know t, hspec, h.keep rfl ⟨rfl, rfl⟩⟩
    · cases hsem
  | lock name =>
    simp only [sem] at hsem
    split at hsem
    next hfree =>
      cases hsem
      exact ⟨_, hspec, invariant_lock h hfree⟩
    next => cases hsem
  | databaseExists name =>
    obtain ⟨l, hl, hnone, htrue, hfalse⟩ := hspec
    cases hsem
    by_cases hx : x = .done
    · simp only [hx]
      cases hdb : s.server.databases name with
      | some id => exact ⟨_, htrue, invariant_found h hl hdb⟩
      | none => exact ⟨_, hfalse, invariant_absent h hl hdb⟩
    · simp only [hx]
      exact ⟨know t, hnone, h.keep rfl ⟨rfl, rfl⟩⟩
  | createDatabase name =>
    obtain ⟨l, hl, htrue, hfalse⟩ := hspec
    obtain ⟨server, hanswer, heq⟩ := Option.map_eq_some_iff.mp hsem
    cases heq
    cases x with
    | lost => exact absurd rfl hcond
    | refused =>
      cases hanswer
      exact ⟨know t, hfalse, h.keep rfl ⟨rfl, rfl⟩⟩
    | done =>
      obtain rfl := create_of_answer rfl hanswer
      exact ⟨_, htrue, h.1.rename (by rw [hl]; rfl), h.2.create h.1 hl⟩
  | setupReturned name outcome =>
    obtain ⟨l, hl, hQ⟩ := hspec
    cases hsem
    have hok : outcome = .ok := hcond
    simp only [hok, if_true]
    exact ⟨_, hQ, h.1.rename (by rw [hl]; rfl), h.2.complete h.1 hl⟩
  | unlock name panicking =>
    obtain ⟨l, f, hl, hf, hQ⟩ := hspec
    cases hsem
    exact ⟨_, hQ, invariant_unlock h hl hf rfl ⟨rfl, rfl⟩⟩
  | release name =>
    cases hsem
    exact ⟨know t, hspec, h.keep rfl ⟨rfl, rfl⟩⟩
  | returned name outcome =>
    cases hsem
    exact ⟨know t, hspec.2, h.keep rfl ⟨rfl, rfl⟩⟩

/-! ### Runs -/

/-- Each thread runs a client, which ensures templates like a setup function does. -/
def start (clients : Nat → Setup) : Config Nat Instr Instr.Answer Outcome State :=
  ⟨State.init, fun t => (clients t).run none⟩

theorem invariant_init : Invariant State.init fun _ => ⟨[], []⟩ := by
  refine ⟨⟨fun _ => List.nodup_nil, fun t name => iff_of_false List.not_mem_nil nofun⟩, ?_⟩
  exact ⟨fun _ _ h => absurd h List.not_mem_nil, fun _ _ h => absurd h List.not_mem_nil,
    fun _ _ h => absurd h List.not_mem_nil, nofun, List.nodup_nil, nofun, nofun, nofun⟩

/-- **Ensured templates are set up, unless a setup fails.** In every interleaving of threads that
ensure templates with setup functions of their own, in which no setup function fails on a database
that was created for it and no `CREATE` is executed and reported as failed, a call returns `Ok` for
a database on which a setup function has completed, and on no database have two completed. -/
theorem ensured_templates_ready (shard : DatabaseName → Nat) (clients : Nat → Setup)
    (events : List (Nat × Reply)) {c : Config Nat Instr Instr.Answer Outcome State}
    (halong : Along (step (sem shard)) (OnInstr SetupSucceeds) events (start clients))
    (hrun : run (step (sem shard)) events (start clients) = some c) : TemplatesReady c := by
  have hstart : Known spec Invariant (fun _ => Balanced ⟨[], []⟩) (start clients) :=
    ⟨_, invariant_init, fun t => wp_setup (clients t) none _⟩
  obtain ⟨know, ⟨-, hfacts⟩, hwp⟩ := run_sound (spec_sound shard) hstart halong hrun
  refine ⟨fun t name k hthread => ?_, fun name id _ => ?_⟩
  · have hspec := hwp t
    rw [hthread] at hspec
    exact hfacts.ready t name (hspec.1 rfl)
  · exact List.nodup_iff_count_le_one.mp hfacts.once id

/-- Two threads ensure one template. While the first sets it up the second cannot go on, and then it
finds the database and is about to return `Ok`. -/
theorem ensured_templates_ready_both :
    ∃ c c' k, run (step (sem fun _ => 0)) (List.replicate 4 (0, .done))
        (start fun _ => .ensure "template" (.finish .ok) .finish) = some c ∧
      step (sem fun _ => 0) c (1, .done) = none ∧
      run (step (sem fun _ => 0)) (List.replicate 4 (0, .done) ++ List.replicate 5 (1, .done)) c =
        some c' ∧ c'.threads 1 = .exec (.returned "template" .ok) k ∧ TemplatesReady c' := by
  refine ⟨_, _, _, rfl, rfl, rfl, rfl, ensured_templates_ready (fun _ => 0)
    (fun _ => .ensure "template" (.finish .ok) .finish)
    (List.replicate 8 (0, .done) ++ List.replicate 5 (1, .done)) ?_ rfl⟩
  exact along_cons rfl (OnInstr.of_eq rfl trivial) <| along_cons rfl (OnInstr.of_eq rfl trivial) <|
    along_cons rfl (OnInstr.of_eq rfl trivial) <| along_cons rfl (OnInstr.of_eq rfl nofun) <|
    along_cons rfl (OnInstr.of_eq rfl rfl) <| along_cons rfl (OnInstr.of_eq rfl trivial) <|
    along_cons rfl (OnInstr.of_eq rfl trivial) <| along_cons rfl (OnInstr.of_eq rfl trivial) <|
    along_cons rfl (OnInstr.of_eq rfl trivial) <| along_cons rfl (OnInstr.of_eq rfl trivial) <|
    along_cons rfl (OnInstr.of_eq rfl trivial) <| along_cons rfl (OnInstr.of_eq rfl trivial) <|
    along_cons rfl (OnInstr.of_eq rfl trivial) trivial

/-- The setup function of the first call fails, and the second call returns `Ok`. -/
theorem ensured_template_not_ready :
    ∃ c, run (step (sem fun _ => 0))
        (List.replicate 8 (0, .done) ++ List.replicate 5 (1, .done))
        (start fun t => .ensure "template" (.finish (if t = 0 then .err else .ok)) .finish) =
          some c ∧
      c.state.completed = [] ∧ ¬ TemplatesReady c := by
  refine ⟨_, rfl, rfl, fun h => ?_⟩
  obtain ⟨id, -, hmem⟩ := h.1 1 "template" _ rfl
  exact absurd hmem List.not_mem_nil

end PgEmbeddedSetup.Template
