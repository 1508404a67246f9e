import Mathlib.Tactic
import Mathlib.Data.List.DropRight

/-!
# Undo logs of assignments to a partial map

A partial map `K → Option V` is changed by assignments `(k, some v)` (set) and `(k, none)` (unset).
`undoLog m as` is what a writer records who reads each key just before assigning to it, and `undo`
assigns a log back, the last entry first. Undoing the log of any list of assignments gives the map
back (`undo_undoLog`), whatever keys the list repeats.

`logs` are the logs of a stack of assignment lists, each recorded on top of the lists below it;
undoing the upper logs leaves the map under the lower lists (`undoStack_logs`).
-/

namespace UndoLog

variable {K V : Type} [DecidableEq K]

/-- Sets or unsets one key. -/
def assign (m : K → Option V) (a : K × Option V) : K → Option V :=
  Function.update m a.1 a.2

def assignAll (m : K → Option V) (as : List (K × Option V)) : K → Option V :=
  as.foldl assign m

/-- The previous value of each key, read just before it is assigned. -/
def undoLog (m : K → Option V) : List (K × Option V) → List (K × Option V)
  | [] => []
  | a :: as => (a.1, m a.1) :: undoLog (assign m a) as

/-- Assigns the entries of a log, the last one first. -/
def undo (m : K → Option V) (log : List (K × Option V)) : K → Option V :=
  log.foldr (fun a m => assign m a) m

@[simp] theorem assignAll_nil (m : K → Option V) : assignAll m [] = m := rfl

@[simp] theorem assignAll_cons (m : K → Option V) (a : K × Option V) (as : List (K × Option V)) :
    assignAll m (a :: as) = assignAll (assign m a) as := rfl

theorem assignAll_append (m : K → Option V) (as bs : List (K × Option V)) :
    assignAll m (as ++ bs) = assignAll (assignAll m as) bs :=
  List.foldl_append

@[simp] theorem undo_nil (m : K → Option V) : undo m [] = m := rfl

@[simp] theorem undo_cons (m : K → Option V) (a : K × Option V) (log : List (K × Option V)) :
    undo m (a :: log) = assign (undo m log) a := rfl

theorem assign_assign_self (m : K → Option V) (a : K × Option V) :
    assign (assign m a) (a.1, m a.1) = m := by
  simp [assign]

theorem undo_undoLog (m : K → Option V) (as : List (K × Option V)) :
    undo (assignAll m as) (undoLog m as) = m := by
  induction as generalizing m with
  | nil => rfl
  | cons a as ih =>
    rw [undoLog, assignAll_cons, undo_cons, ih]
    exact assign_assign_self m a

theorem assignAll_preserves {P : V → Prop} {m : K → Option V} {as : List (K × Option V)}
    (hm : ∀ k v, m k = some v → P v) (has : ∀ a ∈ as, ∀ v, a.2 = some v → P v) :
    ∀ k v, assignAll m as k = some v → P v := by
  induction as generalizing m with
  | nil => exact hm
  | cons a as ih =>
    refine ih (fun k v hk => ?_) (fun b hb => has b (List.mem_cons_of_mem _ hb))
    by_cases hka : k = a.1
    · subst hka
      exact has a List.mem_cons_self v (by simpa [assign] using hk)
    · exact hm k v (by simpa [assign, hka] using hk)

theorem undoLog_forall {P : V → Prop} {m : K → Option V} {as : List (K × Option V)}
    (hm : ∀ k v, m k = some v → P v) (has : ∀ a ∈ as, ∀ v, a.2 = some v → P v) :
    ∀ b ∈ undoLog m as, (∃ a ∈ as, a.1 = b.1) ∧ ∀ v, b.2 = some v → P v := by
  induction as generalizing m with
  | nil => intro b hb; exact absurd hb List.not_mem_nil
  | cons a as ih =>
    intro b hb
    rcases List.mem_cons.mp hb with rfl | hb
    · exact ⟨⟨a, List.mem_cons_self, rfl⟩, hm a.1⟩
    · have hassign : ∀ k v, assignAll m [a] k = some v → P v :=
        assignAll_preserves hm fun c hc =>
          has c (List.mem_cons.mpr (Or.inl (List.mem_singleton.mp hc)))
      obtain ⟨⟨c, hc, hkey⟩, hval⟩ :=
        ih hassign (fun c hc => has c (List.mem_cons_of_mem _ hc)) b hb
      exact ⟨⟨c, List.mem_cons_of_mem _ hc, hkey⟩, hval⟩

/-! ### A stack of logs -/

/-- Undoes a stack of logs from the top, which is the last. -/
def undoStack (m : K → Option V) (gs : List (List (K × Option V))) : K → Option V :=
  gs.foldr (fun g m => undo m g) m

@[simp] theorem undoStack_nil (m : K → Option V) : undoStack m [] = m := rfl

/-- The log of each list of assignments, recorded on top of the lists below it. -/
def logs (m : K → Option V) : List (List (K × Option V)) → List (List (K × Option V))
  | [] => []
  | l :: ls => undoLog m l :: logs (assignAll m l) ls

@[simp] theorem logs_nil (m : K → Option V) : logs m [] = [] := rfl

/-- Undoing the logs above `ls` leaves the map under `ls`. -/
theorem undoStack_logs (m : K → Option V) (ls ls' : List (List (K × Option V))) :
    undoStack (assignAll m (ls ++ ls').flatten) (logs (assignAll m ls.flatten) ls') =
      assignAll m ls.flatten := by
  rw [List.flatten_append, assignAll_append]
  generalize assignAll m ls.flatten = m'
  induction ls' generalizing m' with
  | nil => rfl
  | cons l ls' ih =>
    rw [List.flatten_cons, assignAll_append]
    show undo (undoStack _ _) _ = m'
    rw [ih, undo_undoLog]

end UndoLog
