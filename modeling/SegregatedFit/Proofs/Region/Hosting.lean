import SegregatedFit.Proofs.Region.Soundness

/-
  Processes that host a region.

  Whoever uses a region lets it grow and stores bytes in it,
  one after the other: `Region.LeadsTo`.  A process that
  hosts the region can follow by acts of its own.  Since such
  acts keep it sound, the address space has the bytes of the
  region wherever its use has led to.

  Key definitions include:
    * `Memory.StoresTo`
    * `Region.LeadsTo`
    * `Process.OwnRun`, `Process.Follows`

  Key theorems include:
    * `Process.exists_follows`
    * `Process.Follows.bytes_eq`
-/

namespace SegregatedFit

------------------------------------------------------------
-- Uses of a Region
------------------------------------------------------------

/- Some stores make one memory out of another one. -/
inductive Memory.StoresTo
    (m : Memory) :
    Memory → Prop where
  | refl :
      StoresTo m m
  | store
      {n k : Memory}
      (offset : Nat)
      (bytes : List UInt8)
      (before : StoresTo m n)
      (stored : n.store offset bytes = .ok k) :
      StoresTo m k

/- Stores follow each other. -/
theorem Memory.StoresTo.trans
    {m n k : Memory}
    (h : m.StoresTo n)
    (h' : n.StoresTo k) :
    m.StoresTo k := by
  induction h' with
  | refl => exact h
  | store offset bytes _ stored ih =>
      exact ih.store offset bytes stored

/- Some growths, granted or not, and stores of bytes. -/
inductive Region.LeadsTo
    (r : Region) :
    Region → Prop where
  | refl :
      LeadsTo r r
  | grow
      {next : Region}
      (increment : Nat)
      (before : LeadsTo r next) :
      LeadsTo r (next.grow increment).2
  | store
      {next : Region}
      {m : Memory}
      (offset : Nat)
      (bytes : List UInt8)
      (before : LeadsTo r next)
      (stored : next.memory.store offset bytes = .ok m) :
      LeadsTo r { next with memory := m }

namespace Region.LeadsTo

variable {r middle next : Region}

/- One use follows another one. -/
theorem trans
    (h : r.LeadsTo middle)
    (h' : middle.LeadsTo next) :
    r.LeadsTo next := by
  induction h' with
  | refl => exact h
  | grow increment _ ih => exact ih.grow increment
  | store offset bytes _ stored ih =>
      exact ih.store offset bytes stored

/- A region is used by asking it to grow. -/
theorem of_grow
    {increment : Nat}
    {answer : Except Error Nat}
    (h : r.grow increment = (answer, next)) :
    r.LeadsTo next := by
  have hGrow := LeadsTo.grow increment (.refl (r := r))
  rw [h] at hGrow
  exact hGrow

/- A region is used by storing bytes in its memory. -/
theorem stores
    {m : Memory}
    (h : r.LeadsTo next)
    (hStores : next.memory.StoresTo m) :
    r.LeadsTo { next with memory := m } := by
  induction hStores with
  | refl => exact h
  | store offset bytes _ stored ih =>
      have hNext := ih.store offset bytes stored
      exact hNext

end Region.LeadsTo

------------------------------------------------------------
-- Processes
------------------------------------------------------------

/- Acts of the process itself, and not of other code. -/
def Process.Act.isOwn :
    Act → Bool
| .grow _ => true
| .write _ _ => true
| .moveBreak _ => false
| .disturb _ _ => false

namespace Process

variable {p next : Process}
variable {region : Region}

/- A process gets from one state to another by its own acts. -/
def OwnRun
    (p next : Process) : Prop :=
  ∃ acts : List Act,
    (∀ act ∈ acts, act.isOwn = true) ∧
      p.run acts = some next

/- Another act of its own goes on from there. -/
theorem OwnRun.act
    {last : Process}
    (h : p.OwnRun next)
    (act : Act)
    (hOwn : act.isOwn = true)
    (hAct : next.act act = some last) :
    p.OwnRun last := by
  rcases h with ⟨acts, hActs, hRun⟩
  refine ⟨acts ++ [act], ?_, ?_⟩
  · intro other hOther
    rcases List.mem_append.1 hOther with hMem | hMem
    · exact hActs other hMem
    · rw [List.mem_singleton.1 hMem]
      exact hOwn
  · unfold run at hRun ⊢
    rw [List.foldlM_append, hRun]
    change (next.act act >>= pure) = _
    rw [hAct]
    rfl

/- It gets by its own acts to where its region is this one. -/
def Follows
    (p : Process)
    (region : Region)
    (next : Process) : Prop :=
  p.OwnRun next ∧ next.region = region

/- A process follows wherever the use of its region leads. -/
theorem exists_follows
    (h : p.region.LeadsTo region) :
    ∃ next, p.Follows region next := by
  induction h with
  | refl => exact ⟨p, ⟨[], by simp, rfl⟩, rfl⟩
  | grow increment _ ih =>
      rcases ih with ⟨middle, hRun, rfl⟩
      exact ⟨(middle.grow increment).2,
        hRun.act (.grow increment) rfl rfl,
        middle.region_grow increment⟩
  | @store before m offset bytes _ stored ih =>
      rcases ih with ⟨middle, hRun, rfl⟩
      have hWrite : middle.write offset bytes = .ok {
          middle with
          region := { middle.region with memory := m },
          space := middle.space.put
            (middle.region.base + offset) bytes } := by
        unfold write
        rw [Fault.bind_of_ok stored]
        rfl
      have hAct := congrArg Except.toOption hWrite
      exact ⟨_, hRun.act (.write offset bytes) rfl hAct,
        rfl⟩

/-
  However a sound process gets there, its address space has
  the bytes that the region knows.
-/
theorem Follows.bytes_eq
    (h : p.Follows region next)
    (hSound : p.Sound) :
    next.bytes = region.memory.slice 0 region.size := by
  rcases h with ⟨⟨acts, _, hRun⟩, rfl⟩
  exact (hSound.run hRun).1.bytes_eq

end Process

end SegregatedFit
