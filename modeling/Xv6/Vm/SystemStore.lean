import Xv6.Syscall.UserBuffer
import Xv6.Vm.EagerFork

/-! System calls that store into user memory. `entry` sets `CR0_WP`, so a store
of the kernel to a page without `PTE_W` faults as well; `trap` handles a fault
only in user mode and panics for one in the kernel. The single thread of a
process is in the call, so a call is one step. -/
namespace Xv6.Vm
open Transition Simulation Syscall

/-- A store of the kernel at a user address of the current process. `PTE_U` does
not matter. `none` is `panic("trap")`. -/
def kernelStore (s : Machine) (p : Slot) (va : Nat) (byte : UInt8) : Option Machine :=
  (s.entry p (va / pgsize)).bind fun pte =>
    if pte.flags.w then some { s with mem := s.mem.writeByte pte.ppn (offset va) byte } else none

def kernelStores (p : Slot) : List Store → Machine → Option Machine
  | [], s => some s
  | store :: rest, s => (kernelStore s p store.1 store.2).bind (kernelStores p rest)

/-- A call with the user's stack pointer and the open files. -/
structure SysCall where
  call : Call
  esp : Nat
  ofile : Nat → Option File

def Machine.byte (s : Machine) (p : Slot) (va : Nat) : UInt8 :=
  ((s.entry p (va / pgsize)).map fun pte => s.mem.frame pte.ppn (offset va)).getD 0

def Machine.caller (s : Machine) (p : Slot) (sys : SysCall) : Caller :=
  ⟨(s.procs p).sz, sys.esp, s.byte p, sys.ofile⟩

def sysCall (s : Machine) (p : Slot) (sys : SysCall) : Option (Machine × Option Int) :=
  let effect := sys.call.effect (s.caller p sys)
  (kernelStores p effect.stores s).map fun s => (s, effect.ret)

abbrev SysLabel := Slot × (Act ⊕ SysCall)

def sysStepOut (s : Machine) : SysLabel → Option (Machine × (Outcome ⊕ Option Int))
  | (p, .inl a) => (stepOut s (p, a)).map fun result => (result.1, .inl result.2)
  | (p, .inr sys) =>
    if (s.procs p).state = .runnable then
      (sysCall s p sys).map fun result => (result.1, .inr result.2)
    else none

/-- The pages of a buffer that `argptr` accepts have `PTE_W`. -/
def SysGuard (s : Machine) : SysLabel → Prop
  | (p, .inl a) => ForkGuard s (p, a)
  | (p, .inr sys) =>
    ∀ arg ∈ sys.call.buffer (s.caller p sys), ∀ addr ∈ argptr (s.caller p sys) arg.1 arg.2,
      ∀ k, k < arg.2 → (s.entry p (u32 (addr + k) / pgsize)).any (fun pte => pte.flags.w) = true

/-- The event in the machine where `fork` copies. -/
def sysSeen : SysLabel × (Outcome ⊕ Option Int) → Option (SysLabel × (Outcome ⊕ Option Int))
  | ((p, .inl a), .inl out) =>
    (seen ((p, a), out)).map fun event => ((event.1.1, .inl event.1.2), .inl event.2)
  | event => some event

def SysKallocsSucceed (s : Machine) (labels : List SysLabel) : Prop :=
  Along (forget sysStepOut) (fun _ _ next => next.mem.kfailed = false) s labels

namespace Users

def byte (u : Users) (p : Slot) (va : Nat) : UInt8 :=
  (((u.procs p).view.bind fun view => view (va / pgsize)).map fun entry =>
    entry.1 (offset va)).getD 0

def caller (u : Users) (p : Slot) (sys : SysCall) : Caller :=
  ⟨(u.procs p).sz, sys.esp, u.byte p, sys.ofile⟩

/-- The process's own copy of a page changes. -/
def kernelStore (u : Users) (p : Slot) (va : Nat) (byte : UInt8) : Option Users :=
  ((u.procs p).view.bind fun view => view (va / pgsize)).map fun entry =>
    let write := fun (view : View) =>
      Function.update view (va / pgsize) (some (Function.update entry.1 (offset va) byte, entry.2))
    u.setProc p { u.procs p with view := (u.procs p).view.map write }

def kernelStores (p : Slot) : List Store → Users → Option Users
  | [], u => some u
  | store :: rest, u => (u.kernelStore p store.1 store.2).bind (kernelStores p rest)

def sysCall (u : Users) (p : Slot) (sys : SysCall) : Option (Users × Option Int) :=
  let effect := sys.call.effect (u.caller p sys)
  (kernelStores p effect.stores u).map fun u => (u, effect.ret)

def sysStep (u : Users) : SysLabel → Option (Users × (Outcome ⊕ Option Int))
  | (p, .inl a) => (u.step (p, a)).map fun result => (result.1, .inl result.2)
  | (p, .inr sys) =>
    if (u.procs p).state = .runnable then
      (u.sysCall p sys).map fun result => (result.1, .inr result.2)
    else none

end Users

variable {stores : List Store}

section

variable {kend : Nat} {s s' : Machine} {p : Slot} {d : PageDir} {va : Nat} {byte : UInt8}

theorem kernelStore_cases (h : kernelStore s p va byte = some s') :
    ∃ pte, s.entry p (va / pgsize) = some pte ∧ pte.flags.w = true ∧
      s' = { s with mem := s.mem.writeByte pte.ppn (offset va) byte } := by
  obtain ⟨pte, hentry, hwrite⟩ := Option.bind_eq_some_iff.mp h
  obtain ⟨hw, hs'⟩ := Option.ite_none_right_eq_some.mp hwrite
  cases hs'
  exact ⟨pte, hentry, hw, rfl⟩

theorem kernelStore_users (h : Sound kend s) (hstore : kernelStore s p va byte = some s') :
    Sound kend s' ∧ s.users.kernelStore p va byte = some s'.users ∧
      (∀ c v, s'.entry c v = s.entry c v) ∧ s'.mem.kfailed = s.mem.kfailed := by
  obtain ⟨pte, hentry, hw, rfl⟩ := kernelStore_cases hstore
  refine ⟨sound_written h _ _, ?_, fun _ _ => rfl, rfl⟩
  obtain ⟨d, hd, hpte⟩ := entry_eq_some.mp hentry
  have hpage : ((s.users.procs p).view.bind fun view => view (va / pgsize)) =
      some (s.mem.frame pte.ppn, pte.flags.u) := by
    simp [Machine.users, Proc.user, hd, PageDir.view, hpte]
  unfold Users.kernelStore
  rw [hpage, Option.map_some]
  refine congrArg some (Eq.symm (users_eq ?_ rfl))
  intro x
  refine (written_user h hd hpte hw x).trans ?_
  by_cases hxp : x = p
  · rw [hxp, if_pos rfl, Users.setProc_self]
    simp only [Proc.user, Machine.users, hd, Option.map_some]
  · rw [if_neg hxp, Users.setProc_of_ne _ _ hxp]
    rfl

theorem kernelStores_users (h : Sound kend s)
    (hstores : kernelStores p stores s = some s') :
    Sound kend s' ∧ Users.kernelStores p stores s.users = some s'.users ∧
      (∀ c v, s'.entry c v = s.entry c v) ∧ s'.mem.kfailed = s.mem.kfailed := by
  induction stores generalizing s with
  | nil =>
    cases hstores
    exact ⟨h, rfl, fun _ _ => rfl, rfl⟩
  | cons store rest ih =>
    obtain ⟨s1, hstore, hrest⟩ := Option.bind_eq_some_iff.mp hstores
    obtain ⟨hsound, husers, hentries, hfailed⟩ := kernelStore_users h hstore
    obtain ⟨hsound', husers', hentries', hfailed'⟩ := ih hsound hrest
    refine ⟨hsound', ?_, fun c v => (hentries' c v).trans (hentries c v), hfailed'.trans hfailed⟩
    rw [Users.kernelStores, husers]
    exact husers'

theorem kernelStores_total
    (hw : ∀ store ∈ stores, (s.entry p (store.1 / pgsize)).any (fun pte => pte.flags.w) = true) :
    ∃ s', kernelStores p stores s = some s' := by
  induction stores generalizing s with
  | nil => exact ⟨s, rfl⟩
  | cons store rest ih =>
    have hhead := hw store List.mem_cons_self
    cases hentry : s.entry p (store.1 / pgsize) with
    | none => simp [hentry] at hhead
    | some pte =>
      have hflag : pte.flags.w = true := by simpa [hentry] using hhead
      simp only [kernelStores, kernelStore, hentry, Option.bind_some, hflag, if_true]
      exact ih fun other hother => hw other (List.mem_cons_of_mem store hother)

theorem users_byte (s : Machine) (p : Slot) (va : Nat) : s.users.byte p va = s.byte p va := by
  cases hd : (s.procs p).pgdir with
  | none => simp [Users.byte, Machine.byte, Machine.users, Proc.user, Machine.entry, hd]
  | some d =>
    simp [Users.byte, Machine.byte, Machine.users, Proc.user, Machine.entry, hd, PageDir.view,
      Function.comp_def]

theorem users_caller (s : Machine) (p : Slot) (sys : SysCall) :
    s.users.caller p sys = s.caller p sys := by
  have hbyte : s.users.byte p = s.byte p := funext (users_byte s p)
  simp only [Users.caller, Machine.caller, hbyte]
  rfl

theorem sysCall_users {sys : SysCall} {ret : Option Int} (h : Sound kend s)
    (hcall : sysCall s p sys = some (s', ret)) :
    Sound kend s' ∧ s.users.sysCall p sys = some (s'.users, ret) ∧
      (∀ c v, s'.entry c v = s.entry c v) ∧ s'.mem.kfailed = s.mem.kfailed := by
  obtain ⟨s1, hstores, hresult⟩ := Option.map_eq_some_iff.mp hcall
  cases hresult
  obtain ⟨hsound, husers, hentries, hfailed⟩ := kernelStores_users h hstores
  refine ⟨hsound, ?_, hentries, hfailed⟩
  simp only [Users.sysCall, users_caller, husers, Option.map_some]

theorem users_kernelStores_others {u u' : Users} {c : Slot} (hc : c ≠ p)
    (h : Users.kernelStores p stores u = some u') : u'.procs c = u.procs c := by
  induction stores generalizing u with
  | nil =>
    cases h
    rfl
  | cons store rest ih =>
    obtain ⟨u1, hstore, hrest⟩ := Option.bind_eq_some_iff.mp h
    obtain ⟨entry, _, hu1⟩ := Option.map_eq_some_iff.mp hstore
    rw [ih hrest, ← hu1]
    exact Users.setProc_of_ne u _ hc

end

section

variable {kend : Nat} {s s' : Machine} {label : SysLabel} {out : Outcome ⊕ Option Int}

theorem sysStep_users (h : Sound kend s) (hguard : SysGuard s label)
    (hstep : sysStepOut s label = some (s', out)) (hcalm : s'.mem.kfailed = false) :
    Sound kend s' ∧ Follows Users.sysStep s.users s'.users (sysSeen (label, out)) := by
  obtain ⟨p, a | sys⟩ := label
  · obtain ⟨⟨s1, out1⟩, hact, hresult⟩ := Option.map_eq_some_iff.mp hstep
    cases hresult
    obtain ⟨hsound, hfollows⟩ := step_users h hguard hact hcalm
    refine ⟨hsound, ?_⟩
    simp only [sysSeen]
    cases hseen : seen ((p, a), out1) with
    | none =>
      rw [hseen] at hfollows
      exact hfollows
    | some event =>
      rw [hseen] at hfollows
      have hspec : s.users.step event.1 = some (s1.users, event.2) := hfollows
      simp only [Option.map_some, Follows, Users.sysStep, hspec]
  · obtain ⟨hlive, hmap⟩ := Option.ite_none_right_eq_some.mp hstep
    obtain ⟨⟨s1, ret⟩, hcall, hresult⟩ := Option.map_eq_some_iff.mp hmap
    cases hresult
    obtain ⟨hsound, husers, _⟩ := sysCall_users h hcall
    refine ⟨hsound, ?_⟩
    have hlive : (s.users.procs p).state = .runnable := hlive
    simp only [sysSeen, Follows, Users.sysStep, hlive, if_true, husers, Option.map_some]

theorem noShare_writable (h : Sound kend s) (hshare : NoShare s) {p : Slot} {v : Nat} {pte : Pte}
    (hentry : s.entry p v = some pte) : pte.flags.w = true := by
  rw [(h.flagged p v pte hentry).2, hshare p v pte hentry]
  rfl

theorem kernelStores_of_users {p : Slot} {u : Users} (h : Sound kend s)
    (hshare : NoShare s) (hspec : Users.kernelStores p stores s.users = some u) :
    ∃ s', kernelStores p stores s = some s' := by
  induction stores generalizing s with
  | nil => exact ⟨s, rfl⟩
  | cons store rest ih =>
    obtain ⟨u1, hstore, hrest⟩ := Option.bind_eq_some_iff.mp hspec
    have hpresent : ∃ pte, s.entry p (store.1 / pgsize) = some pte := by
      obtain ⟨entry, hentry, _⟩ := Option.map_eq_some_iff.mp hstore
      obtain ⟨view, hview, hpage⟩ := Option.bind_eq_some_iff.mp hentry
      obtain ⟨d, hd, rfl⟩ := Option.map_eq_some_iff.mp hview
      obtain ⟨pte, hpte, _⟩ := Option.map_eq_some_iff.mp hpage
      exact ⟨pte, entry_eq_some.mpr ⟨d, hd, hpte⟩⟩
    obtain ⟨pte, hentry⟩ := hpresent
    have hw := noShare_writable h hshare hentry
    have hstep : ∃ s1, kernelStore s p store.1 store.2 = some s1 := by
      simp only [kernelStore, hentry, Option.bind_some, hw, if_true]
      exact ⟨_, rfl⟩
    obtain ⟨s1, hs1⟩ := hstep
    obtain ⟨hsound, husers, hentries, _⟩ := kernelStore_users h hs1
    cases hstore.symm.trans husers
    have hshare1 : NoShare s1 := fun x v pte he => hshare x v pte (by rwa [hentries x v] at he)
    obtain ⟨s', hs'⟩ := ih hsound hshare1 hrest
    exact ⟨s', by rw [kernelStores, hs1]; exact hs'⟩

theorem reference_sysStep {next : Users} (h : Sound kend s ∧ NoShare s)
    (hspec : s.users.sysStep label = some (next, out)) :
    ∃ s' out', sysStepOut s label = some (s', out') ∧
      (s'.mem.kfailed = false → (Sound kend s' ∧ NoShare s') ∧ s'.users = next ∧ out' = out) := by
  obtain ⟨p, a | sys⟩ := label
  · obtain ⟨⟨u, out1⟩, hact, hresult⟩ := Option.map_eq_some_iff.mp hspec
    cases hresult
    obtain ⟨s', out', hstep, hkeep⟩ := reference_step h hact
    refine ⟨s', .inl out', by simp [sysStepOut, hstep], fun hcalm => ?_⟩
    obtain ⟨hinv, husers, rfl⟩ := hkeep hcalm
    exact ⟨hinv, husers, rfl⟩
  · obtain ⟨hlive, hmap⟩ := Option.ite_none_right_eq_some.mp hspec
    obtain ⟨⟨u, ret⟩, hcall, hresult⟩ := Option.map_eq_some_iff.mp hmap
    cases hresult
    obtain ⟨u1, hstores, hret⟩ := Option.map_eq_some_iff.mp hcall
    cases hret
    rw [users_caller] at hstores
    obtain ⟨s', hs'⟩ := kernelStores_of_users h.1 h.2 hstores
    obtain ⟨hsound, husers, hentries, _⟩ := kernelStores_users h.1 hs'
    have hlive : (s.procs p).state = .runnable := hlive
    refine ⟨s', .inr (sys.call.effect (s.caller p sys)).ret, ?_, fun _ => ⟨⟨hsound, ?_⟩, ?_, ?_⟩⟩
    · simp [sysStepOut, hlive, sysCall, hs']
    · exact fun x v pte he => h.2 x v pte (by rwa [hentries x v] at he)
    · exact Option.some.inj (husers.symm.trans hstores)
    · rw [users_caller]

end

/-- Without buffers in shared pages: the events of a run and the memory of all
processes are those of the machine in which each `cow_fork` is a `fork`, no call
panics, and a call changes nobody else's memory. -/
theorem system_calls_look_eager {start final : Machine} {labels : List SysLabel}
    {events : List (SysLabel × (Outcome ⊕ Option Int))} (hstart : ForkStart start)
    (hguard : Meets (forget sysStepOut) SysGuard start labels)
    (hrun : trace sysStepOut start labels = some (final, events))
    (hcow : SysKallocsSucceed start labels)
    (heager : SysKallocsSucceed start ((events.filterMap sysSeen).map Prod.fst)) :
    (∃ final', trace sysStepOut start ((events.filterMap sysSeen).map Prod.fst) =
        some (final', events.filterMap sysSeen) ∧ final'.users = final.users) ∧
      ∀ p sys, (final.procs p).state = .runnable → SysGuard final (p, .inr sys) →
        ∃ next ret, sysCall final p sys = some (next, ret) ∧
          ∀ c, c ≠ p → next.users.procs c = final.users.procs c := by
  have hshare : NoShare start := fun p v pte hentry => (hstart.pages.flags p v pte hentry).2
  have hspec : trace Users.sysStep start.users ((events.filterMap sysSeen).map Prod.fst) =
      some (final.users, events.filterMap sysSeen) :=
    trace_simulates (fun _ _ _ _ => sysStep_users) hstart.sound hguard hcow hrun
  refine ⟨trace_implements (fun s label next out h hspec => reference_sysStep h hspec)
    ⟨hstart.sound, hshare⟩ heager hspec, ?_⟩
  intro p sys _ hwritable
  have hsound : Sound start.mem.kend final := by
    refine run_invariant_along (fun s label next h hguard hstep hcalm => ?_) hstart.sound hguard
      hcow (run_of_trace hrun)
    obtain ⟨⟨_, out⟩, hout, rfl⟩ := Option.map_eq_some_iff.mp hstep
    exact (sysStep_users h hguard hout hcalm).1
  have hwritten : ∀ store ∈ (sys.call.effect (final.caller p sys)).stores,
      (final.entry p (store.1 / pgsize)).any (fun pte => pte.flags.w) = true := by
    intro store hstore
    obtain ⟨n, size, addr, hbuffer, haddr, hwithin⟩ := within_effect hstore
    obtain ⟨k, hk, heq⟩ := hwithin store hstore
    rw [heq]
    exact hwritable _ hbuffer addr haddr k hk
  obtain ⟨next, hnext⟩ := kernelStores_total hwritten
  obtain ⟨_, husers, _⟩ := kernelStores_users hsound hnext
  refine ⟨next, (sys.call.effect (final.caller p sys)).ret, ?_,
    fun c hc => users_kernelStores_others hc husers⟩
  simp only [sysCall, hnext, Option.map_some]

instance (s : Machine) (label : SysLabel) : Decidable (SysGuard s label) :=
  match label with
  | (p, .inl a) => inferInstanceAs (Decidable (ForkGuard s (p, a)))
  | (p, .inr sys) =>
    inferInstanceAs (Decidable (∀ arg ∈ sys.call.buffer (s.caller p sys),
      ∀ addr ∈ argptr (s.caller p sys) arg.1 arg.2, ∀ k, k < arg.2 →
        (s.entry p (u32 (addr + k) / pgsize)).any (fun pte => pte.flags.w) = true))

/-- `pipe(fd)` with the array at the address that is on top of the stack. -/
def pipeCall : SysCall :=
  ⟨.pipe true, 0, fun _ => none⟩

/-- The child writes to the page it shares before it calls `pipe`. -/
def writeThenPipe : List SysLabel :=
  [(slot0, .inl .cowFork), (slot1, .inl (.store 4 8)), (slot1, .inl (.store 4 8)),
  (slot1, .inr pipeCall),
    (slot1, .inl (.load 12)), (slot0, .inl (.load 12))]

instance (s : Machine) (labels : List SysLabel) : Decidable (SysKallocsSucceed s labels) :=
  inferInstanceAs (Decidable (Along ..))

theorem system_calls_look_eager_pipe : ∃ start final events, ForkStart start ∧
      trace sysStepOut start writeThenPipe = some (final, events) ∧
      events.map Prod.snd = [.inl (.child 1), .inl .retry, .inl .stored, .inr (some 0),
        .inl (.loaded 1), .inl (.loaded 0)] ∧
      ∃ final', trace sysStepOut start ((events.filterMap sysSeen).map Prod.fst) =
        some (final', events.filterMap sysSeen) := by
  obtain ⟨start, hboot, hcalm, hguard, hcow, ⟨final, events⟩, htrace, houts, heager⟩ :
      ∃ start, userinit smallMem zeroPage = some start ∧ start.mem.kfailed = false ∧
        Meets (forget sysStepOut) SysGuard start writeThenPipe ∧
        SysKallocsSucceed start writeThenPipe ∧
        ∃ result, trace sysStepOut start writeThenPipe = some result ∧
          result.2.map Prod.snd = [.inl (.child 1), .inl .retry, .inl .stored, .inr (some 0),
            .inl (.loaded 1), .inl (.loaded 0)] ∧
          SysKallocsSucceed start ((result.2.filterMap sysSeen).map Prod.fst) := by
    decide +kernel
  have hstart := forkStart_userinit List.nodup_range' (fun _ => rfl) smallMem_range hboot hcalm
  obtain ⟨⟨final', hfinal', _⟩, _⟩ := system_calls_look_eager hstart hguard htrace hcow heager
  exact ⟨start, final, events, hstart, htrace, houts, final', hfinal'⟩

/-- A child calls `pipe` with an array in the page it shares. After `fork` the
call succeeds, after `cow_fork` the kernel panics. -/
theorem pipe_into_shared_page_panics :
    ∃ start forked shared, userinit smallMem zeroPage = some start ∧
      run (forget sysStepOut) start [(slot0, .inl .fork)] = some forked ∧
      run (forget sysStepOut) start [(slot0, .inl .cowFork)] = some shared ∧
      (∃ next, sysCall forked slot1 pipeCall = some (next, some 0)) ∧
      sysCall shared slot1 pipeCall = none := by
  obtain ⟨start, hboot, forked, hforked, hcall, shared, hshared, hpanic⟩ :
      ∃ start, userinit smallMem zeroPage = some start ∧
        ∃ forked, run (forget sysStepOut) start [(slot0, .inl .fork)] = some forked ∧
          (sysCall forked slot1 pipeCall).map Prod.snd = some (some 0) ∧
          ∃ shared, run (forget sysStepOut) start [(slot0, .inl .cowFork)] = some shared ∧
            (sysCall shared slot1 pipeCall).isNone := by
    decide +kernel
  obtain ⟨⟨next, ret⟩, hnext, hret⟩ := Option.map_eq_some_iff.mp hcall
  cases hret
  exact ⟨start, forked, shared, hboot, hforked, hshared, ⟨next, hnext⟩,
    Option.isNone_iff_eq_none.mp hpanic⟩

end Xv6.Vm
