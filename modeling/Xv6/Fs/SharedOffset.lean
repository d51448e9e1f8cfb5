import Mathlib.Algebra.GroupWithZero.Nat
import Xv6.Fs.Filewrite
import Xv6.Lib.Transition

/-! Writers that share a `struct file`: `filewrite` of `file.c` with the steps of all
processes interleaved wherever a process takes a lock or can sleep. -/
namespace Xv6.Fs.SharedOffset
open Function Transition

/-- Where a process is in `filewrite`; `r` is what `writei` returned, `none` for -1. -/
inductive Pc where
  | idle
  | head
  | lock
  | write
  | advance (r : Option Nat)
  | unlock (r : Option Nat)
  | finish (r : Option Nat)
deriving DecidableEq

/-- The local variables of a call. The number of the call is not a variable of the
code. -/
structure Writer where
  pc : Pc
  call : Nat
  data : List UInt8
  i : Nat

def Writer.chunk (w : Writer) : List UInt8 :=
  (w.data.drop w.i).take maxwrite

structure Chunk where
  call : Nat
  start : Nat
  bytes : List UInt8

/-- `off` is the offset in the `struct file` and `busy` the owner of the lock of its
inode. The rest is the history: the data of all calls, the chunks in the order of the
calls of `writei`, and whether one of them failed. -/
structure Shared where
  fs : State
  off : Nat
  busy : Option Nat
  proc : Nat → Writer
  calls : List (List UInt8)
  chunks : List Chunk
  failed : Bool

inductive Label where
  | call (p : Nat) (data : List UInt8)
  | step (p : Nat)

def Shared.goto (s : Shared) (p : Nat) (pc : Pc) : Shared :=
  { s with proc := update s.proc p { s.proc p with pc := pc } }

section

variable (sb : Superblock) (ip : Nat)

/-- The next step of process `p`, which waits in `begin_op` and for the lock. The others
wait for the lock while `writei` sleeps, so it is one step. -/
def turn (s : Shared) (p : Nat) : Option Shared :=
  let w := s.proc p
  match w.pc with
  | .idle => none
  | .head =>
    if w.i < w.data.length then (beginOp s.fs).map fun fs => { s.goto p .lock with fs := fs }
    else some (s.goto p .idle)
  | .lock =>
    if s.busy = none then
      (ilock s.fs ip).map fun fs => { s.goto p .write with fs := fs, busy := some p }
    else none
  | .write =>
    (writei sb s.fs ip w.chunk s.off).map fun result =>
      match result.1 with
      | some r =>
        { s.goto p (.advance (some r)) with
          fs := result.2
          chunks := s.chunks ++ [⟨w.call, s.off, w.chunk⟩] }
      | none => { s.goto p (.advance none) with fs := result.2, failed := true }
  | .advance r => some { s.goto p (.unlock r) with off := s.off + r.getD 0 }
  | .unlock r => if s.busy = some p then some { s.goto p (.finish r) with busy := none } else none
  | .finish none => some { s.goto p .idle with fs := endOp s.fs }
  | .finish (some r) =>
    -- a short write is a panic
    if r = w.chunk.length then
      some { s with
        fs := endOp s.fs
        proc := update s.proc p { w with pc := .head, i := w.i + r } }
    else none

def step (s : Shared) : Label → Option Shared
  | .call p data =>
    if (s.proc p).pc = .idle then
      some { s with
        proc := update s.proc p ⟨.head, s.calls.length, data, 0⟩
        calls := s.calls ++ [data] }
    else none
  | .step p => turn sb ip s p

end

def init (fs : State) (off : Nat) : Shared :=
  ⟨fs, off, none, fun _ => ⟨.idle, 0, [], 0⟩, [], [], false⟩

/-- The chunks are not empty and lie one behind the other from `off` on. -/
def Tiles : Nat → List Chunk → Prop
  | _, [] => True
  | off, chunk :: rest =>
    chunk.start = off ∧ 0 < chunk.bytes.length ∧ Tiles (off + chunk.bytes.length) rest

def bytesOf (chunks : List Chunk) : List UInt8 :=
  (chunks.map Chunk.bytes).flatten

def written (chunks : List Chunk) (call : Nat) : List UInt8 :=
  bytesOf (chunks.filter fun chunk => chunk.call = call)

section Chunks

variable {chunks : List Chunk} {chunk : Chunk} {off c : Nat}

theorem bytesOf_append (left right : List Chunk) :
    bytesOf (left ++ right) = bytesOf left ++ bytesOf right := by
  rw [bytesOf, List.map_append, List.flatten_append]
  rfl

theorem bytesOf_singleton : bytesOf [chunk] = chunk.bytes := by
  simp [bytesOf]

theorem tiles_append (h : Tiles off chunks) (hstart : chunk.start = off + (bytesOf chunks).length)
    (hpos : 0 < chunk.bytes.length) : Tiles off (chunks ++ [chunk]) := by
  induction chunks generalizing off with
  | nil => exact ⟨hstart, hpos, trivial⟩
  | cons first rest ih =>
    obtain ⟨hfirst, hlen, hrest⟩ := h
    refine ⟨hfirst, hlen, ih hrest ?_⟩
    rw [hstart, bytesOf, List.map_cons, List.flatten_cons, List.length_append, ← Nat.add_assoc]
    rfl

theorem written_append_self (h : chunk.call = c) :
    written (chunks ++ [chunk]) c = written chunks c ++ chunk.bytes := by
  rw [written, List.filter_append, bytesOf_append, List.filter_cons_of_pos (by simpa using h)]
  simp [written, bytesOf]

theorem written_append_of_ne (h : chunk.call ≠ c) :
    written (chunks ++ [chunk]) c = written chunks c := by
  rw [written, List.filter_append, bytesOf_append, List.filter_cons_of_neg (by simpa using h)]
  simp [written, bytesOf]

theorem sum_range_ite (n c a : Nat) :
    ((List.range n).map fun x => if c = x then a else 0).sum = if c < n then a else 0 := by
  induction n with
  | zero => rfl
  | succ n ih =>
    rw [List.range_succ, List.map_append, List.sum_append, ih, List.map_singleton,
      List.sum_singleton]
    by_cases hlt : c < n
    · rw [if_pos hlt, if_neg (show c ≠ n by omega), if_pos (show c < n + 1 by omega), Nat.add_zero]
    · by_cases heq : c = n
      · rw [if_neg hlt, if_pos heq, if_pos (show c < n + 1 by omega), Nat.zero_add]
      · rw [if_neg hlt, if_neg heq, if_neg (show ¬ c < n + 1 by omega)]

theorem length_bytesOf {n : Nat} (h : ∀ chunk ∈ chunks, chunk.call < n) :
    (bytesOf chunks).length = ((List.range n).map fun c => (written chunks c).length).sum := by
  induction chunks with
  | nil => simp [written, bytesOf]
  | cons first rest ih =>
    have hcons : ∀ c, (written (first :: rest) c).length =
        (if first.call = c then first.bytes.length else 0) + (written rest c).length := by
      intro c
      by_cases hc : first.call = c
      · rw [if_pos hc, written, List.filter_cons_of_pos (by simpa using hc), bytesOf,
          List.map_cons, List.flatten_cons, List.length_append]
        rfl
      · rw [if_neg hc, written, List.filter_cons_of_neg (by simpa using hc), Nat.zero_add]
        rfl
    simp only [hcons, List.sum_map_add]
    rw [sum_range_ite, if_pos (h first List.mem_cons_self),
      ← ih fun chunk hchunk => h chunk (List.mem_cons_of_mem _ hchunk), bytesOf, List.map_cons,
      List.flatten_cons, List.length_append]
    rfl

end Chunks

def Pc.critical : Pc → Bool
  | .write | .advance _ | .unlock _ => true
  | _ => false

def Pc.pending : Pc → Nat
  | .advance r => r.getD 0
  | _ => 0

def Pc.ahead : Pc → Nat
  | .advance r | .unlock r | .finish r => r.getD 0
  | _ => 0

def Shared.pending (s : Shared) : Nat :=
  match s.busy with
  | some p => (s.proc p).pc.pending
  | none => 0

/-- The shared file. `fs` is the file system at the start. -/
structure FileOk (sb : Superblock) (ip : Nat) (fs : State) (s : Shared) : Prop where
  safe : Safe sb s.fs
  synced : Synced s.fs
  ref : 0 < (s.fs.icache ip).ref
  type : (s.fs.inode ip).type = .file
  locked : s.busy ≠ none → s.fs.Locked ip
  content : s.fs.content ip = fs.content ip ++ bytesOf s.chunks
  tiles : Tiles (fs.inode ip).size s.chunks
  offset : s.off + s.pending = (s.fs.inode ip).size

structure WriterOk (calls : List (List UInt8)) (chunks : List Chunk) (w : Writer) : Prop where
  call : calls[w.call]? = some w.data
  done : written chunks w.call = w.data.take (w.i + w.pc.ahead)
  within : w.i + w.pc.ahead ≤ w.data.length
  left : w.pc = .lock ∨ w.pc = .write → w.i < w.data.length
  result : ∀ r, w.pc = .advance r ∨ w.pc = .unlock r ∨ w.pc = .finish r →
    r = some w.chunk.length

/-- The calls: those in progress are of different processes, and the others are done. -/
structure CallsOk (s : Shared) : Prop where
  owner : ∀ p, (s.proc p).pc.critical = true ↔ s.busy = some p
  writers : ∀ p, (s.proc p).pc ≠ .idle → WriterOk s.calls s.chunks (s.proc p)
  distinct : ∀ p q, (s.proc p).pc ≠ .idle → (s.proc q).pc ≠ .idle →
    (s.proc p).call = (s.proc q).call → p = q
  known : ∀ chunk ∈ s.chunks, chunk.call < s.calls.length
  finished : ∀ c data, s.calls[c]? = some data →
    (∀ p, (s.proc p).pc ≠ .idle → (s.proc p).call ≠ c) → written s.chunks c = data

section

variable {sb : Superblock} {ip : Nat} {fs : State} {s s' : Shared} {p : Nat}

theorem beginOp_log {s s' : State} (h : beginOp s = some s') :
    ∃ lh outstanding, s' = { s with lh, outstanding } := by
  unfold beginOp at h
  split at h
  · cases h
  · cases h
    exact ⟨_, _, rfl⟩

theorem endOp_log (s : State) : ∃ lh outstanding, endOp s = { s with lh, outstanding } := by
  unfold endOp
  split
  · exact ⟨_, _, rfl⟩
  · exact ⟨_, _, rfl⟩

/-- The log is no part of the file. -/
theorem FileOk.congr (h : FileOk sb ip fs s)
    (hfs : ∃ lh outstanding, s'.fs = { s.fs with lh, outstanding })
    (hchunks : s'.chunks = s.chunks) (hbusy : s'.busy ≠ none → s.busy ≠ none)
    (hoff : s'.off + s'.pending = s.off + s.pending) : FileOk sb ip fs s' := by
  obtain ⟨lh, outstanding, hfs⟩ := hfs
  refine ⟨by rw [hfs]; exact h.safe.withLog lh outstanding, by rw [hfs]; exact h.synced,
    by rw [hfs]; exact h.ref, by rw [hfs]; exact h.type,
    fun hne => by rw [hfs]; exact h.locked (hbusy hne), ?_, ?_, ?_⟩
  · rw [hfs, hchunks]
    exact h.content
  · rw [hchunks]
    exact h.tiles
  · rw [hoff, hfs]
    exact h.offset

variable {w : Writer}

theorem active_of_pc {pc : Pc} (hpc : (s.proc p).pc = pc) (hne : pc ≠ .idle) :
    (s.proc p).pc ≠ .idle :=
  hpc ▸ hne

/-- One process moves, and the calls and the chunks may grow. -/
theorem CallsOk.of_update (h : CallsOk s) (hproc : s'.proc = update s.proc p w)
    (howner : ∀ q, (s'.proc q).pc.critical = true ↔ s'.busy = some q)
    (hself : w.pc ≠ .idle → WriterOk s'.calls s'.chunks w)
    (hother : ∀ q, q ≠ p → (s.proc q).pc ≠ .idle → WriterOk s'.calls s'.chunks (s.proc q))
    (hdistinct : w.pc ≠ .idle → ∀ q, q ≠ p → (s.proc q).pc ≠ .idle → (s.proc q).call ≠ w.call)
    (hknown : ∀ chunk ∈ s'.chunks, chunk.call < s'.calls.length)
    (hfinished : ∀ c data, s'.calls[c]? = some data → (w.pc ≠ .idle → w.call ≠ c) →
      (∀ q, q ≠ p → (s.proc q).pc ≠ .idle → (s.proc q).call ≠ c) → written s'.chunks c = data) :
    CallsOk s' := by
  have hp : s'.proc p = w := by rw [hproc, update_self]
  have hq : ∀ {q}, q ≠ p → s'.proc q = s.proc q := fun hq => by rw [hproc, update_of_ne hq]
  refine ⟨howner, fun q hactive => ?_, fun q r hactive hactive' heq => ?_, hknown,
    fun c data hc hfree => ?_⟩
  · by_cases hqp : q = p
    · rw [hqp, hp] at hactive ⊢
      exact hself hactive
    · rw [hq hqp] at hactive ⊢
      exact hother q hqp hactive
  · by_cases hqp : q = p <;> by_cases hrp : r = p
    · rw [hqp, hrp]
    · rw [hqp, hp] at hactive heq
      rw [hq hrp] at hactive' heq
      exact absurd heq.symm (hdistinct hactive r hrp hactive')
    · rw [hq hqp] at hactive heq
      rw [hrp, hp] at hactive' heq
      exact absurd heq (hdistinct hactive' q hqp hactive)
    · rw [hq hqp] at hactive heq
      rw [hq hrp] at hactive' heq
      exact h.distinct q r hactive hactive' heq
  · refine hfinished c data hc (fun hactive => ?_) fun q hqp hactive => ?_
    · rw [← hp] at hactive ⊢
      exact hfree p hactive
    · rw [← hq hqp] at hactive ⊢
      exact hfree q hactive

theorem CallsOk.move (h : CallsOk s) (hactive : (s.proc p).pc ≠ .idle)
    (hproc : s'.proc = update s.proc p w) (hcalls : s'.calls = s.calls)
    (hchunks : s'.chunks = s.chunks) (hcall : w.call = (s.proc p).call) (hidle : w.pc ≠ .idle)
    (howner : ∀ q, (s'.proc q).pc.critical = true ↔ s'.busy = some q)
    (hw : WriterOk s.calls s.chunks w) : CallsOk s' := by
  refine h.of_update hproc howner ?_ ?_ (fun _ q hq hq' heq => ?_) ?_ ?_
  · rw [hcalls, hchunks]
    exact fun _ => hw
  · rw [hcalls, hchunks]
    exact fun q _ => h.writers q
  · exact hq (h.distinct q p hq' hactive (heq.trans hcall))
  · rw [hcalls, hchunks]
    exact h.known
  · rw [hcalls, hchunks]
    intro c data hc hself hothers
    refine h.finished c data hc fun q hq => ?_
    by_cases hqp : q = p
    · rw [hqp, ← hcall]
      exact hself hidle
    · exact hothers q hqp hq

/-- The owner of the lock does not change when `p` stays in or out of the critical
section. -/
theorem CallsOk.owner_of_same (h : CallsOk s)
    (hproc : s'.proc = update s.proc p w) (hbusy : s'.busy = s.busy)
    (hcritical : w.pc.critical = (s.proc p).pc.critical) (q : Nat) :
    (s'.proc q).pc.critical = true ↔ s'.busy = some q := by
  rw [hproc, hbusy]
  by_cases hq : q = p
  · rw [hq, update_self, hcritical]
    exact h.owner p
  · rw [update_of_ne hq]
    exact h.owner q

theorem pending_of_proc (h : CallsOk s)
    (hproc : s'.proc = update s.proc p w) (hbusy : s'.busy = s.busy)
    (hout : (s.proc p).pc.critical = false) : s'.pending = s.pending := by
  unfold Shared.pending
  rw [hbusy]
  cases howner : s.busy with
  | none => rfl
  | some q =>
    dsimp only
    have hq : q ≠ p := by
      rintro rfl
      rw [(h.owner q).mpr howner] at hout
      cases hout
    rw [hproc, update_of_ne hq]

theorem written_of_unknown {chunks : List Chunk} {c : Nat}
    (h : ∀ chunk ∈ chunks, chunk.call < c) : written chunks c = [] := by
  have hnone : (chunks.filter fun chunk => chunk.call = c) = [] := by
    rw [List.filter_eq_nil_iff]
    intro chunk hchunk heq
    exact Nat.ne_of_lt (h chunk hchunk) (of_decide_eq_true heq)
  rw [written, hnone]
  rfl

theorem WriterOk.call_lt {calls : List (List UInt8)} {chunks : List Chunk}
    (h : WriterOk calls chunks w) : w.call < calls.length :=
  (List.getElem?_eq_some_iff.mp h.call).1

theorem calls_call {data : List UInt8} (h : CallsOk s) (hidle : (s.proc p).pc = .idle)
    (hproc : s'.proc = update s.proc p ⟨.head, s.calls.length, data, 0⟩)
    (hcalls : s'.calls = s.calls ++ [data]) (hchunks : s'.chunks = s.chunks)
    (hbusy : s'.busy = s.busy) : CallsOk s' := by
  refine h.of_update hproc (h.owner_of_same hproc hbusy (by rw [hidle]; rfl)) ?_ ?_ ?_ ?_ ?_
  · rw [hcalls, hchunks]
    refine fun _ => ⟨List.getElem?_concat_length, written_of_unknown h.known, Nat.zero_le _, ?_, ?_⟩
    · rintro (hpc | hpc) <;> cases hpc
    · rintro r (hpc | hpc | hpc) <;> cases hpc
  · rw [hcalls, hchunks]
    intro q _ hq
    have hw := h.writers q hq
    exact ⟨by rw [List.getElem?_append_left hw.call_lt]; exact hw.call, hw.done, hw.within,
      hw.left, hw.result⟩
  · exact fun _ q _ hq => (h.writers q hq).call_lt.ne
  · rw [hcalls, hchunks, List.length_append]
    exact fun chunk hchunk => Nat.lt_add_right _ (h.known chunk hchunk)
  · rw [hcalls, hchunks]
    intro c data' hc hself hothers
    have hlt : c < s.calls.length := by
      have hlt := (List.getElem?_eq_some_iff.mp hc).1
      have hne : s.calls.length ≠ c := hself Pc.noConfusion
      rw [List.length_append, List.length_singleton] at hlt
      omega
    rw [List.getElem?_append_left hlt] at hc
    refine h.finished c data' hc fun q hq => hothers q ?_ hq
    rintro rfl
    exact hq hidle

theorem calls_return (h : CallsOk s) (hhead : (s.proc p).pc = .head)
    (hend : ¬ (s.proc p).i < (s.proc p).data.length)
    (hproc : s'.proc = update s.proc p w) (hidle : w.pc = .idle)
    (hcalls : s'.calls = s.calls) (hchunks : s'.chunks = s.chunks) (hbusy : s'.busy = s.busy) :
    CallsOk s' := by
  refine h.of_update hproc (h.owner_of_same hproc hbusy (by rw [hhead, hidle]; rfl))
    (absurd hidle) ?_ (absurd hidle) ?_ ?_
  · rw [hcalls, hchunks]
    exact fun q _ => h.writers q
  · rw [hcalls, hchunks]
    exact h.known
  · rw [hcalls, hchunks]
    intro c data hc _ hothers
    by_cases hcall : (s.proc p).call = c
    · -- the call that ends here has written all of its data
      have hw := h.writers p (active_of_pc hhead Pc.noConfusion)
      have hdone := hw.done
      rw [hhead, hcall] at hdone
      rw [hdone, List.take_of_length_le (Nat.le_trans (Nat.le_of_not_lt hend)
        (Nat.le_add_right _ _))]
      have hdata := hw.call
      rw [hcall, hc] at hdata
      exact (Option.some.inj hdata).symm
    · refine h.finished c data hc fun q hq => ?_
      by_cases hqp : q = p
      · rw [hqp]
        exact hcall
      · exact hothers q hqp hq

theorem length_chunk_pos (h : w.i < w.data.length) : 0 < w.chunk.length := by
  have hmax : 0 < maxwrite := by decide
  rw [Writer.chunk, List.length_take, List.length_drop]
  omega

theorem length_chunk_le (w : Writer) (h : w.i ≤ w.data.length) :
    w.i + w.chunk.length ≤ w.data.length := by
  rw [Writer.chunk, List.length_take, List.length_drop]
  omega

theorem take_add_chunk (w : Writer) :
    w.data.take w.i ++ w.chunk = w.data.take (w.i + w.chunk.length) := by
  rw [List.take_add, Writer.chunk, List.length_take]
  congr 1
  rw [← List.take_take, List.take_length]

theorem file_write {result : State} {r : Nat} (hsb : sb.Sane) (h : FileOk sb ip fs s)
    (hcalls : CallsOk s) (hpc : (s.proc p).pc = .write)
    (hwrite : writei sb s.fs ip (s.proc p).chunk s.off = some (some r, result))
    (hfs : s'.fs = result) (hoff : s'.off = s.off) (hbusy : s'.busy = s.busy)
    (hproc : (s'.proc p).pc = .advance (some r))
    (hchunks : s'.chunks = s.chunks ++ [⟨(s.proc p).call, s.off, (s.proc p).chunk⟩]) :
    r = (s.proc p).chunk.length ∧ FileOk sb ip fs s' := by
  have howner : s.busy = some p := (hcalls.owner p).mp (by rw [hpc]; rfl)
  have hlock : s.fs.Locked ip := h.locked (by rw [howner]; exact Option.some_ne_none p)
  have hwriter := hcalls.writers p (active_of_pc hpc Pc.noConfusion)
  have hpos := length_chunk_pos (hwriter.left (Or.inr hpc))
  have hsize : s.off = (s.fs.inode ip).size := by
    have hoffset := h.offset
    rw [Shared.pending, howner] at hoffset
    simpa [hpc, Pc.pending] using hoffset
  have hdev : (s.fs.inode ip).type ≠ .dev := by
    rw [h.type]
    decide
  have hok : ¬ ((s.fs.inode ip).size < s.off ∨ uintSize ≤ s.off + (s.proc p).chunk.length ∨
      maxfile * bsize < s.off + (s.proc p).chunk.length) := by
    intro hbad
    rw [writei_fails hlock hdev hbad] at hwrite
    cases hwrite
  obtain ⟨hresult, hover, _⟩ := writei_overwrites hsb h.safe hlock hdev (by omega) (by omega)
    (by omega) hwrite
  have hcontent : result.content ip = s.fs.content ip ++ (s.proc p).chunk := by
    have hlength := content_length s.fs ip
    rw [hover.content_self hlock (by omega), List.take_of_length_le (by omega),
      List.drop_of_length_le (by omega), List.append_nil]
  have hinode := hover.inode_self hlock
  refine ⟨Option.some.inj hresult, ⟨by rw [hfs]; exact hover.safe,
    by rw [hfs]; exact hover.synced h.synced, by rw [hfs, hover.ref]; exact h.ref, ?_,
    fun _ => by rw [hfs]; exact (hover.locked ip).mpr hlock, ?_, ?_, ?_⟩⟩
  · rw [hfs, hinode]
    exact h.type
  · rw [hfs, hcontent, hchunks, bytesOf_append, bytesOf_singleton, h.content, List.append_assoc]
  · rw [hchunks]
    refine tiles_append h.tiles ?_ hpos
    have hlength := content_length s.fs ip
    rw [h.content, List.length_append, content_length] at hlength
    dsimp only
    omega
  · rw [Shared.pending, hbusy, howner]
    dsimp only
    rw [hproc, hoff, hfs, hinode]
    obtain rfl := Option.some.inj hresult
    show s.off + (s.proc p).chunk.length = max (s.fs.inode ip).size _
    omega

theorem calls_write (h : CallsOk s) (hpc : (s.proc p).pc = .write)
    (hproc : s'.proc = update s.proc p w)
    (hw : w = { s.proc p with pc := .advance (some (s.proc p).chunk.length) })
    (hbusy : s'.busy = s.busy) (hcalls : s'.calls = s.calls)
    (hchunks : s'.chunks = s.chunks ++ [⟨(s.proc p).call, s.off, (s.proc p).chunk⟩]) :
    CallsOk s' := by
  have hactive := active_of_pc hpc Pc.noConfusion
  have hwriter := h.writers p hactive
  have hne : ∀ q, q ≠ p → (s.proc q).pc ≠ .idle → (s.proc q).call ≠ (s.proc p).call :=
    fun q hqp hq heq => hqp (h.distinct q p hq hactive heq)
  subst hw
  have howner := h.owner_of_same hproc hbusy (by rw [hpc]; rfl)
  refine h.of_update hproc howner ?_ ?_ (fun _ => hne) ?_ ?_
  · rw [hcalls, hchunks]
    have hdone := hwriter.done
    rw [hpc] at hdone
    refine fun _ => ⟨hwriter.call, ?_, ?_, ?_, ?_⟩
    · rw [written_append_self rfl, hdone]
      exact take_add_chunk (s.proc p)
    · exact length_chunk_le _ (Nat.le_of_lt (hwriter.left (Or.inr hpc)))
    · rintro (hpc | hpc) <;> cases hpc
    · rintro r (hpc | hpc | hpc)
      · cases hpc
        rfl
      · cases hpc
      · cases hpc
  · rw [hcalls, hchunks]
    intro q hqp hq
    have hw := h.writers q hq
    refine ⟨hw.call, ?_, hw.within, hw.left, hw.result⟩
    rw [written_append_of_ne (hne q hqp hq).symm]
    exact hw.done
  · rw [hcalls, hchunks]
    intro chunk hchunk
    rcases List.mem_append.mp hchunk with hchunk | hchunk
    · exact h.known chunk hchunk
    · rw [List.mem_singleton.mp hchunk]
      exact hwriter.call_lt
  · rw [hcalls, hchunks]
    intro c data hc hself hothers
    have hself := hself Pc.noConfusion
    rw [written_append_of_ne hself]
    refine h.finished c data hc fun q hq => ?_
    by_cases hqp : q = p
    · rw [hqp]
      exact hself
    · exact hothers q hqp hq

theorem file_lock {result : State} (h : FileOk sb ip fs s) (hfree : s.busy = none)
    (hlock : ilock s.fs ip = some result) (hfs : s'.fs = result) (hchunks : s'.chunks = s.chunks)
    (hoff : s'.off = s.off) (hbusy : s'.busy = some p) (hpc : (s'.proc p).pc = .write) :
    FileOk sb ip fs s' := by
  have htype : (s.fs.inode ip).type ≠ .free := by
    rw [h.type]
    decide
  obtain ⟨result', hlock', hsame, hsafe, hsync, hlocked, hrefs, _⟩ :=
    ilock_total h.safe h.synced h.ref htype
  rw [hlock] at hlock'
  obtain rfl := Option.some.inj hlock'
  have hoffset := h.offset
  rw [Shared.pending, hfree] at hoffset
  refine ⟨by rw [hfs]; exact hsafe, by rw [hfs]; exact hsync,
    by rw [hfs, hrefs]; exact h.ref, by rw [hfs, hsame.inode]; exact h.type,
    fun _ => by rw [hfs]; exact hlocked, ?_, by rw [hchunks]; exact h.tiles, ?_⟩
  · rw [hfs, hsame.content, hchunks]
    exact h.content
  · rw [Shared.pending, hbusy]
    dsimp only
    rw [hpc, hoff, hfs, hsame.inode]
    exact hoffset

theorem WriterOk.goto {calls : List (List UInt8)} {chunks : List Chunk} {pc : Pc}
    (h : WriterOk calls chunks w) (hahead : pc.ahead = w.pc.ahead)
    (hleft : pc = .lock ∨ pc = .write → w.i < w.data.length)
    (hresult : ∀ r, pc = .advance r ∨ pc = .unlock r ∨ pc = .finish r →
      r = some w.chunk.length) : WriterOk calls chunks { w with pc := pc } := by
  refine ⟨h.call, ?_, ?_, hleft, hresult⟩
  · dsimp only
    rw [hahead]
    exact h.done
  · dsimp only
    rw [hahead]
    exact h.within

theorem pc_goto (s : Shared) (p : Nat) (pc : Pc) : ((s.goto p pc).proc p).pc = pc := by
  dsimp only [Shared.goto]
  rw [update_self]

theorem turn_good (hsb : sb.Sane) (hfile : FileOk sb ip fs s) (hcalls : CallsOk s)
    (hturn : turn sb ip s p = some s') (hok : s'.failed = false) :
    FileOk sb ip fs s' ∧ CallsOk s' := by
  unfold turn at hturn
  dsimp only at hturn
  split at hturn
  · cases hturn
  · -- the head of the loop
    rename_i hpc
    have hactive := active_of_pc hpc Pc.noConfusion
    have hout : (s.proc p).pc.critical = false := by
      rw [hpc]
      rfl
    split at hturn
    · rename_i hmore
      obtain ⟨begun, hbegin, hresult⟩ := Option.map_eq_some_iff.mp hturn
      cases hresult
      have hpending : (s.goto p .lock).pending = s.pending :=
        pending_of_proc hcalls rfl rfl hout
      refine ⟨hfile.congr (beginOp_log hbegin) rfl (fun h => h) (by rw [← hpending]; rfl),
        hcalls.move hactive rfl rfl rfl rfl Pc.noConfusion
          (hcalls.owner_of_same rfl rfl (by rw [hout]; rfl)) ?_⟩
      refine (hcalls.writers p hactive).goto (by rw [hpc]; rfl) (fun _ => hmore) fun r h => ?_
      rcases h with h | h | h <;> cases h
    · rename_i hend
      cases hturn
      have hpending : (s.goto p .idle).pending = s.pending :=
        pending_of_proc hcalls rfl rfl hout
      exact ⟨hfile.congr ⟨_, _, rfl⟩ rfl (fun h => h) (by rw [hpending]; rfl),
        calls_return hcalls hpc hend rfl rfl rfl rfl rfl⟩
  · -- `ilock`
    rename_i hpc
    have hactive := active_of_pc hpc Pc.noConfusion
    have hwriter := hcalls.writers p hactive
    split at hturn
    · rename_i hfree
      obtain ⟨result, hlock, hresult⟩ := Option.map_eq_some_iff.mp hturn
      cases hresult
      refine ⟨file_lock hfile hfree hlock rfl rfl rfl rfl (pc_goto s p .write),
        hcalls.move hactive rfl rfl rfl rfl Pc.noConfusion (fun q => ?_) ?_⟩
      · dsimp only [Shared.goto]
        by_cases hq : q = p
        · rw [hq, update_self]
          exact ⟨fun _ => rfl, fun _ => rfl⟩
        · rw [update_of_ne hq, hcalls.owner q, hfree]
          exact ⟨fun h => (by cases h), fun h => absurd (Option.some.inj h).symm hq⟩
      · refine hwriter.goto (by rw [hpc]; rfl) (fun _ => hwriter.left (Or.inl hpc)) fun r h => ?_
        rcases h with h | h | h <;> cases h
    · cases hturn
  · -- `writei`
    rename_i hpc
    obtain ⟨⟨result, after⟩, hwrite, hresult⟩ := Option.map_eq_some_iff.mp hturn
    cases result with
    | none =>
      cases hresult
      cases hok
    | some r =>
      cases hresult
      obtain ⟨hr, hfile'⟩ : r = (s.proc p).chunk.length ∧ FileOk sb ip fs
          { s.goto p (.advance (some r)) with
            fs := after
            chunks := s.chunks ++ [⟨(s.proc p).call, s.off, (s.proc p).chunk⟩] } :=
        file_write hsb hfile hcalls hpc hwrite rfl rfl rfl (pc_goto s p _) rfl
      exact ⟨hfile', calls_write hcalls hpc rfl (by rw [hr]) rfl rfl rfl⟩
  · -- `f->off += r`
    rename_i r hpc
    have hactive := active_of_pc hpc Pc.noConfusion
    have howner : s.busy = some p := (hcalls.owner p).mp (by rw [hpc]; rfl)
    have hwriter := hcalls.writers p hactive
    have hself := pc_goto s p (.unlock r)
    dsimp only [Shared.goto] at hself
    cases hturn
    refine ⟨hfile.congr ⟨_, _, rfl⟩ rfl (fun h => h) ?_, hcalls.move hactive rfl rfl rfl rfl
      Pc.noConfusion (hcalls.owner_of_same rfl rfl (by rw [hpc]; rfl)) ?_⟩
    · simp only [Shared.pending, Shared.goto, howner, hself, hpc, Pc.pending, Nat.add_zero]
    · refine hwriter.goto (by rw [hpc]; rfl) (fun h => ?_) fun r' h => ?_
      · rcases h with h | h <;> cases h
      · rcases h with h | h | h
        · cases h
        · cases h
          exact hwriter.result r (Or.inl hpc)
        · cases h
  · -- `iunlock`
    rename_i r hpc
    have hactive := active_of_pc hpc Pc.noConfusion
    have hwriter := hcalls.writers p hactive
    split at hturn
    · rename_i howner
      cases hturn
      refine ⟨hfile.congr ⟨_, _, rfl⟩ rfl (fun h => absurd rfl h) ?_,
        hcalls.move hactive rfl rfl rfl rfl Pc.noConfusion (fun q => ?_) ?_⟩
      · simp only [Shared.pending, Shared.goto, howner, hpc, Pc.pending]
      · dsimp only [Shared.goto]
        by_cases hq : q = p
        · rw [hq, update_self]
          exact ⟨fun h => (by cases h), fun h => (by cases h)⟩
        · rw [update_of_ne hq, hcalls.owner q, howner]
          exact ⟨fun h => absurd (Option.some.inj h).symm hq, fun h => (by cases h)⟩
      · refine hwriter.goto (by rw [hpc]; rfl) (fun h => ?_) fun r' h => ?_
        · rcases h with h | h <;> cases h
        · rcases h with h | h | h
          · cases h
          · cases h
          · cases h
            exact hwriter.result r (Or.inr (Or.inl hpc))
    · cases hturn
  · -- a failed `writei` ends the call
    rename_i hpc
    have hwriter := hcalls.writers p (active_of_pc hpc Pc.noConfusion)
    cases hwriter.result none (Or.inr (Or.inr hpc))
  · -- `end_op`, and the next turn
    rename_i r hpc
    have hactive := active_of_pc hpc Pc.noConfusion
    have hout : (s.proc p).pc.critical = false := by
      rw [hpc]
      rfl
    have hwriter := hcalls.writers p hactive
    split at hturn
    · have hpending : Shared.pending
          { s with
            fs := endOp s.fs
            proc := update s.proc p
              { s.proc p with pc := .head, i := (s.proc p).i + r } } = s.pending :=
        pending_of_proc hcalls rfl rfl hout
      cases hturn
      refine ⟨hfile.congr (endOp_log s.fs) rfl (fun h => h) (by rw [hpending]),
        hcalls.move hactive rfl rfl rfl rfl Pc.noConfusion
          (hcalls.owner_of_same rfl rfl (by rw [hout]; rfl)) ?_⟩
      have hdone := hwriter.done
      have hwithin := hwriter.within
      rw [hpc] at hdone hwithin
      refine ⟨hwriter.call, hdone, hwithin, fun h => ?_, fun r' h => ?_⟩
      · rcases h with h | h <;> cases h
      · rcases h with h | h | h <;> cases h
    · cases hturn

theorem step_good {label : Label} (hsb : sb.Sane) (hfile : FileOk sb ip fs s) (hcalls : CallsOk s)
    (hstep : step sb ip s label = some s') (hok : s'.failed = false) :
    FileOk sb ip fs s' ∧ CallsOk s' := by
  cases label with
  | step p => exact turn_good hsb hfile hcalls hstep hok
  | call p data =>
    obtain ⟨hidle, hresult⟩ := Option.ite_none_right_eq_some.mp hstep
    have hpending : Shared.pending
        { s with
          proc := update s.proc p ⟨.head, s.calls.length, data, 0⟩
          calls := s.calls ++ [data] } = s.pending :=
      pending_of_proc hcalls rfl rfl (by rw [hidle]; rfl)
    cases hresult
    exact ⟨hfile.congr ⟨_, _, rfl⟩ rfl (fun h => h) (by rw [hpending]),
      calls_call hcalls hidle rfl rfl rfl rfl⟩

theorem step_failed {label : Label} (hstep : step sb ip s label = some s')
    (hok : s'.failed = false) : s.failed = false := by
  cases label with
  | call p data =>
    obtain ⟨_, rfl⟩ := taken hstep
    exact hok
  | step p =>
    unfold step turn at hstep
    dsimp only at hstep
    split at hstep
    · cases hstep
    · split at hstep
      · obtain ⟨begun, _, hresult⟩ := Option.map_eq_some_iff.mp hstep
        cases hresult
        exact hok
      · cases hstep
        exact hok
    · obtain ⟨_, hmap⟩ := Option.ite_none_right_eq_some.mp hstep
      obtain ⟨result, _, hresult⟩ := Option.map_eq_some_iff.mp hmap
      cases hresult
      exact hok
    · obtain ⟨⟨result, after⟩, _, hresult⟩ := Option.map_eq_some_iff.mp hstep
      cases result with
      | none =>
        cases hresult
        cases hok
      | some r =>
        cases hresult
        exact hok
    · cases hstep
      exact hok
    · obtain ⟨_, rfl⟩ := taken hstep
      exact hok
    · cases hstep
      exact hok
    · obtain ⟨_, rfl⟩ := taken hstep
      exact hok

end

section

variable {sb : Superblock} {ip : Nat} {fs : State} {s : Shared} {labels : List Label}

theorem init_good (hs : Safe sb fs) (hsync : Synced fs) (href : 0 < (fs.icache ip).ref)
    (htype : (fs.inode ip).type = .file) :
    FileOk sb ip fs (init fs (fs.inode ip).size) ∧ CallsOk (init fs (fs.inode ip).size) := by
  refine ⟨⟨hs, hsync, href, htype, fun h => absurd rfl h, (List.append_nil _).symm, trivial, rfl⟩,
    fun p => ⟨fun h => (by cases h), fun h => (by cases h)⟩, fun p h => absurd rfl h,
    fun p q h => absurd rfl h, fun chunk h => absurd h List.not_mem_nil, fun c data h => ?_⟩
  cases h

theorem run_good (hsb : sb.Sane) (hs : Safe sb fs) (hsync : Synced fs)
    (href : 0 < (fs.icache ip).ref) (htype : (fs.inode ip).type = .file)
    (hrun : run (step sb ip) (init fs (fs.inode ip).size) labels = some s)
    (hok : s.failed = false) : FileOk sb ip fs s ∧ CallsOk s := by
  have hmeets : Meets (step sb ip) (fun _ _ => True) (init fs (fs.inode ip).size) labels :=
    meets_of_forall (fun _ _ _ => trivial) _
  have hkeeps : ∀ (s : Shared) (label : Label) (next : Shared),
      (s.failed = false → FileOk sb ip fs s ∧ CallsOk s) → True →
      step sb ip s label = some next → next.failed = false →
      FileOk sb ip fs next ∧ CallsOk next := by
    intro s label next hinv _ hstep hok
    obtain ⟨hfile, hcalls⟩ := hinv (step_failed hstep hok)
    exact step_good hsb hfile hcalls hstep hok
  exact run_invariant hkeeps (fun _ => init_good hs hsync href htype) hmeets hrun hok

theorem length_bytesOf_finished (h : CallsOk s) (hidle : ∀ p, (s.proc p).pc = .idle) :
    (bytesOf s.chunks).length = (s.calls.map List.length).sum := by
  rw [length_bytesOf h.known]
  congr 1
  refine List.ext_getElem (by rw [List.length_map, List.length_map, List.length_range])
    fun c h1 h2 => ?_
  rw [List.length_map] at h2
  rw [List.getElem_map, List.getElem_map, List.getElem_range,
    h.finished c _ (List.getElem?_eq_getElem h2) fun p hp => absurd (hidle p) hp]

/-- Processes that share a file at its end lose nothing: while no `writei` fails, the
chunks lie one behind the other from the first offset on and make up the new contents,
the chunks of each call are in the order of its data, complete when the call is over, and
with all calls over the offset and the size have grown by the lengths of all calls. -/
theorem writers_lose_nothing (hsb : sb.Sane) (hs : Safe sb fs) (hsync : Synced fs)
    (href : 0 < (fs.icache ip).ref) (htype : (fs.inode ip).type = .file)
    (hrun : run (step sb ip) (init fs (fs.inode ip).size) labels = some s)
    (hok : s.failed = false) :
    Tiles (fs.inode ip).size s.chunks ∧
      s.fs.content ip = fs.content ip ++ bytesOf s.chunks ∧
      (∀ c data, s.calls[c]? = some data → written s.chunks c <+: data ∧
        ((∀ p, (s.proc p).pc ≠ .idle → (s.proc p).call ≠ c) → written s.chunks c = data)) ∧
      ((∀ p, (s.proc p).pc = .idle) →
        (s.fs.inode ip).size = (fs.inode ip).size + (s.calls.map List.length).sum ∧
          s.off = (fs.inode ip).size + (s.calls.map List.length).sum) := by
  obtain ⟨hfile, hcalls⟩ := run_good hsb hs hsync href htype hrun hok
  refine ⟨hfile.tiles, hfile.content, fun c data hc => ⟨?_, hcalls.finished c data hc⟩,
    fun hidle => ?_⟩
  · by_cases hactive : ∃ p, (s.proc p).pc ≠ .idle ∧ (s.proc p).call = c
    · obtain ⟨p, hp, hcall⟩ := hactive
      have hwriter := hcalls.writers p hp
      have hdata := hwriter.call
      have hdone := hwriter.done
      rw [hcall] at hdata hdone
      rw [hc] at hdata
      rw [hdone, Option.some.inj hdata]
      exact List.take_prefix ..
    · rw [hcalls.finished c data hc fun p hp hcall => hactive ⟨p, hp, hcall⟩]
  · have hsize : (s.fs.inode ip).size = (fs.inode ip).size + (s.calls.map List.length).sum := by
      rw [← content_length, hfile.content, List.length_append, content_length,
        length_bytesOf_finished hcalls hidle]
    refine ⟨hsize, ?_⟩
    have hpending : s.pending = 0 := by
      unfold Shared.pending
      split
      · rename_i p _
        rw [hidle p]
        rfl
      · rfl
    have hoffset := hfile.offset
    omega

end

/-- Process 1 writes between the two parts of the call of process 0. -/
theorem writers_lose_nothing_two : ∃ s, run (step mkfsDisk 4)
    (init (image mkfsDisk (fun _ => zeroBlock) 1) 0)
    ([.call 0 (List.replicate 6657 7), .call 1 [9], .step 0, .step 1] ++
      List.replicate 5 (.step 0) ++ List.replicate 6 (.step 1) ++ List.replicate 7 (.step 0)) =
      some s ∧
    s.chunks.map (fun chunk => (chunk.call, chunk.start, chunk.bytes.length)) =
      [(0, 0, 6656), (1, 6656, 1), (0, 6657, 1)] ∧
    s.fs.content 4 = bytesOf s.chunks ∧ Tiles 0 s.chunks ∧ s.off = 6658 := by
  obtain ⟨s, hrun, hok, hchunks, hoff⟩ : ∃ s, run (step mkfsDisk 4)
      (init (image mkfsDisk (fun _ => zeroBlock) 1) 0)
      ([.call 0 (List.replicate 6657 7), .call 1 [9], .step 0, .step 1] ++
        List.replicate 5 (.step 0) ++ List.replicate 6 (.step 1) ++ List.replicate 7 (.step 0)) =
        some s ∧
      s.failed = false ∧
      s.chunks.map (fun chunk => (chunk.call, chunk.start, chunk.bytes.length)) =
        [(0, 0, 6656), (1, 6656, 1), (0, 6657, 1)] ∧ s.off = 6658 := by
    decide +kernel
  obtain ⟨htiles, hcontent, _⟩ := writers_lose_nothing mkfsDisk_sane
    (image_safe (by decide) (by decide) (by decide)) image_synced
    (show 0 < ((image mkfsDisk (fun _ => zeroBlock) 1).icache 4).ref by decide)
    (show ((image mkfsDisk (fun _ => zeroBlock) 1).inode 4).type = .file by decide) hrun hok
  exact ⟨s, hrun, hchunks, hcontent, htiles, hoff⟩

end Xv6.Fs.SharedOffset
