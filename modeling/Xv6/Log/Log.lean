import Xv6.Lib.Replay
import Xv6.Lib.Transition
import Xv6.Log.Bcache

/-! The log, `log.c`. A section under `log.lock` is one step, and so is one turn
of the loops of `write_log` and `install_trans`, which writes one block. A crash
can come between any two steps; what is left is the disk. A panic stops the
machine: no step but a crash is possible after it. -/
namespace Xv6.Log
open Replay

/-- `log.start` and `log.size` as `mkfs` stores them in the superblock. -/
abbrev logstart : Nat := 2
abbrev nlog : Nat := logsize

/-- A block number, which is a `uint`, of a block outside the log. -/
def Home (b : Nat) : Prop :=
  (b < logstart ∨ logstart + nlog ≤ b) ∧ b < 0x100000000

instance (b : Nat) : Decidable (Home b) := by
  unfold Home
  infer_instance

/-- The entries `block[0..n-1]` of the `struct logheader` in a block, where `n` is an `int`. -/
def headOf (block : Block) : List Nat :=
  if (block 0).toNat < 0x80000000 then
    (List.range (block 0).toNat).map fun i => (block (Fin.ofNat 128 (i + 1))).toNat
  else []

/-- The stores of `write_head` into the block. -/
def putHead (block : Block) (entries : List Nat) : Block := fun i =>
  if i = 0 then UInt32.ofNat entries.length
  else (entries[i.val - 1]?).elim (block i) UInt32.ofNat

/-- A call of `log_write`: the operation, the block and its new contents. -/
structure Write where
  op : Nat
  block : Nat
  data : Block

/-- Where the thread in `commit`, or the one in `recover_from_log`, is. The
other threads run while it is `running`, or wait for `log.committing`. -/
inductive Pc where
  | running
  | writeLog (t : Tid) (tail : Nat)
  | installTrans (t : Tid) (tail : Nat)
  | finish
  | readHead
  | recoverTrans (tail : Nat)
deriving DecidableEq, Repr

/-- `lh` are the entries `block[0..n-1]` of `log.lh`. `ops` are the threads
between `begin_op` and `end_op`, each with the number of its operation, and
`calls` those in `log_write` before its section under the lock, each with its
buffer and the data for it. The last five fields are not kernel data: they
record, since the last recovery, the home blocks then, the writes of each
commit in order, how many of the commits have completed their first
`write_head`, and the writes that no commit contains yet. -/
structure State where
  disk : Disk
  bcache : Bcache
  lh : List Nat
  outstanding : Nat
  committing : Bool
  pc : Pc
  ops : List (Tid × Nat)
  calls : Tid → Option (BufId × Block)
  nextOp : Nat
  base : Disk
  commits : List (List Write)
  heads : Nat
  pending : List Write

section

def State.op (s : State) (t : Tid) : Option (Tid × Nat) :=
  s.ops.find? fun entry => entry.1 = t

def beginOp (s : State) (t : Tid) : Option State :=
  if s.committing then none
  else if logsize < s.lh.length + (s.outstanding + 1) * maxopblocks then none
  else some { s with
    outstanding := s.outstanding + 1
    ops := (t, s.nextOp) :: s.ops
    nextOp := s.nextOp + 1 }

/-- The checks at the start of `log_write`, made without `log.lock`. `none` is
a panic. -/
def logWrite (s : State) (t : Tid) (i : BufId) (data : Block) : Option State :=
  if logsize ≤ s.lh.length ∨ nlog - 1 ≤ s.lh.length then none
  else if s.outstanding < 1 then none
  else some { s with calls := Function.update s.calls t (some (i, data)) }

/-- The rest of `log_write`. The caller's stores into the busy buffer become
visible here. -/
def append (s : State) (t : Tid) (op : Nat) (i : BufId) (b : Nat) (data : Block) : State :=
  { s with
    lh := if b ∈ s.lh then s.lh else s.lh ++ [b]
    bcache := s.bcache.setBuf i { s.bcache.buf i with data := data, dirty := true }
    calls := Function.update s.calls t none
    pending := s.pending ++ [⟨op, b, data⟩] }

/-- The section of `end_op` under the lock. `none` is the panic. The last
operation starts the commit, which is empty when nothing was logged. -/
def endOp (s : State) (t : Tid) (entry : Tid × Nat) : Option State :=
  let s := { s with outstanding := s.outstanding - 1, ops := s.ops.erase entry }
  if s.committing then none
  else if s.outstanding = 0 then
    if s.lh = [] then some { s with committing := true, pc := .finish }
    else some { s with
      committing := true
      pc := .writeLog t 0
      commits := s.commits ++ [s.pending]
      pending := [] }
  else some s

def writeLogTurn (disk : Disk) (c : Bcache) (t : Tid) (tail home : Nat) :
    Option (Disk × Bcache) :=
  (bread disk c t (logstart + tail + 1)).bind fun (dst, c) =>
    (bread disk c t home).map fun (src, c) =>
      let written := bwrite disk (c.store dst (c.buf src).data) dst
      (written.1, brelse (brelse written.2 src) dst)

def installTurn (disk : Disk) (c : Bcache) (t : Tid) (tail home : Nat) :
    Option (Disk × Bcache) :=
  (bread disk c t (logstart + tail + 1)).bind fun (lbuf, c) =>
    (bread disk c t home).map fun (dbuf, c) =>
      let written := bwrite disk (c.store dbuf (c.buf lbuf).data) dbuf
      (written.1, brelse (brelse written.2 lbuf) dbuf)

def writeHead (disk : Disk) (c : Bcache) (t : Tid) (lh : List Nat) :
    Option (Disk × Bcache) :=
  (bread disk c t logstart).map fun (i, c) =>
    let written := bwrite disk (c.store i (putHead (c.buf i).data lh)) i
    (written.1, brelse written.2 i)

def readHead (disk : Disk) (c : Bcache) (t : Tid) :
    Option (List Nat × Bcache) :=
  (bread disk c t logstart).map fun (i, c) => (headOf (c.buf i).data, brelse c i)

/-- The next block write of `commit`, or the end of `end_op`. -/
def commitStep (s : State) : Option State :=
  match s.pc with
  | .writeLog t tail =>
    match s.lh[tail]? with
    | some home =>
      (writeLogTurn s.disk s.bcache t tail home).map fun (disk, c) =>
        { s with disk := disk, bcache := c, pc := .writeLog t (tail + 1) }
    | none =>
      (writeHead s.disk s.bcache t s.lh).map fun (disk, c) =>
        { s with disk := disk, bcache := c, pc := .installTrans t 0, heads := s.heads + 1 }
  | .installTrans t tail =>
    match s.lh[tail]? with
    | some home =>
      (installTurn s.disk s.bcache t tail home).map fun (disk, c) =>
        { s with disk := disk, bcache := c, pc := .installTrans t (tail + 1) }
    | none =>
      (writeHead s.disk s.bcache t []).map fun (disk, c) =>
        { s with disk := disk, bcache := c, lh := [], pc := .finish }
  | .finish => some { s with committing := false, pc := .running }
  | _ => none

/-- The first process runs `initlog` before there are other threads. -/
abbrev initTid : Tid := 0

/-- The next step of `recover_from_log`. With its last one a new record starts. -/
def recoverStep (s : State) : Option State :=
  match s.pc with
  | .readHead =>
    (readHead s.disk s.bcache initTid).map fun (lh, c) =>
      { s with lh := lh, bcache := c, pc := .recoverTrans 0 }
  | .recoverTrans tail =>
    match s.lh[tail]? with
    | some home =>
      (installTurn s.disk s.bcache initTid tail home).map fun (disk, c) =>
        { s with disk := disk, bcache := c, pc := .recoverTrans (tail + 1) }
    | none =>
      (writeHead s.disk s.bcache initTid []).map fun (disk, c) =>
        { s with
          disk := disk, bcache := c, lh := [], pc := .running
          base := disk, commits := [], heads := 0, pending := [] }
  | _ => none

def crash (s : State) : State :=
  { s with
    bcache := binit, lh := [], outstanding := 0, committing := false, pc := .readHead
    ops := [], calls := fun _ => none }

def boot (disk : Disk) : State :=
  ⟨disk, binit, [], 0, false, .readHead, [], fun _ => none, 0, disk, [], 0, []⟩

/-- Threads other than the one that recovers exist only after recovery. -/
def State.booted (s : State) : Prop :=
  match s.pc with
  | .readHead => False
  | .recoverTrans _ => False
  | _ => True

instance (s : State) : Decidable s.booted := by
  unfold State.booted
  split <;> infer_instance

inductive Act where
  | beginOp (t : Tid)
  | bread (t : Tid) (b : Nat)
  | logWrite (t : Tid) (i : BufId) (data : Block)
  | append (t : Tid)
  | brelse (t : Tid) (i : BufId)
  | endOp (t : Tid)
  | commit
  | recover
  | crash

/-- Calls are well bracketed: a thread is in at most one operation, logs home
blocks in buffers that it holds, and calls nothing else inside `log_write`. -/
def step (s : State) : Act → Option State
  | .beginOp t => if s.booted ∧ s.op t = none then beginOp s t else none
  | .bread t b =>
    if s.booted ∧ s.calls t = none then
      (bread s.disk s.bcache t b).map fun result => { s with bcache := result.2 }
    else none
  | .logWrite t i data =>
    if (s.op t).isSome = true ∧ s.calls t = none ∧ (s.bcache.buf i).busy = some t ∧
        (∃ b ∈ (s.bcache.buf i).blockno, Home b) then
      logWrite s t i data
    else none
  | .append t =>
    match s.op t, s.calls t with
    | some (_, op), some (i, data) =>
      (s.bcache.buf i).blockno.map fun b => append s t op i b data
    | _, _ => none
  | .brelse t i =>
    if (s.bcache.buf i).busy = some t ∧ s.calls t = none then
      some { s with bcache := brelse s.bcache i }
    else none
  | .endOp t =>
    match s.op t with
    | some entry => if s.calls t = none then endOp s t entry else none
    | none => none
  | .commit => commitStep s
  | .recover => recoverStep s
  | .crash => some (crash s)

end

end Xv6.Log
