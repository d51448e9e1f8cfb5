/-! Sizes, names and the state enumeration shared by the process and thread tables. -/
namespace Xv6

abbrev nproc : Nat := 64
abbrev nthread : Nat := 16

def proc0 : Fin nproc := ⟨0, Nat.succ_pos 63⟩
def proc1 : Fin nproc := ⟨1, Nat.succ_lt_succ (Nat.succ_pos 62)⟩
def proc2 : Fin nproc := ⟨2, Nat.succ_lt_succ (Nat.succ_lt_succ (Nat.succ_pos 61))⟩

def thread0 : Fin nthread := ⟨0, Nat.succ_pos 15⟩
def thread1 : Fin nthread := ⟨1, Nat.succ_lt_succ (Nat.succ_pos 14)⟩

def init0 : Fin nproc × Fin nthread := (proc0, thread0)
def init1 : Fin nproc × Fin nthread := (proc0, thread1)
def child0 : Fin nproc × Fin nthread := (proc1, thread0)
def child1 : Fin nproc × Fin nthread := (proc1, thread1)

def leftCpu : Fin 2 := ⟨0, Nat.zero_lt_two⟩
def rightCpu : Fin 2 := ⟨1, Nat.one_lt_two⟩

/-- `enum procstate`, used for processes and for threads. -/
inductive ProcState where
  | unused
  | embryo
  | sleeping
  | runnable
  | running
  | zombie
deriving DecidableEq, Repr

end Xv6
