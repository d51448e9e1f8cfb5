import Xv6.Lib.Simulation
import Xv6.Vm.Counters
import Xv6.Vm.NoPanic
import Xv6.Vm.UserView

/-! `cow_fork` looks like an eager `fork`. Both machines implement the view of
user programs: a step changes the view as the private machine does, or it is the
return from a handled page fault and changes nothing. -/
namespace Xv6.Vm
open Function Ledger Transition Simulation

attribute [local simp] Proc.user Users.step Users.act Follows

structure Sound (kend : Nat) (s : Machine) : Prop extends Ready kend s where
  flagged : Flagged s

section

variable {kend : Nat} {s s' : Machine} {p c : Slot} {src src' d : PageDir} {out : Outcome}

variable {n : Nat}

theorem Shared.dense (h : Shared src src' d n) (hsrc : src.Dense n) :
    src'.Dense n ∧ d.Dense n := by
  constructor <;> intro v <;> by_cases hv : v < n
  · obtain ⟨pte, _, hentry, _⟩ := h.entry v hv
    simp [hentry, hv]
  · rw [(h.above v (by omega)).1]
    exact hsrc v
  · obtain ⟨pte, _, _, hentry⟩ := h.entry v hv
    simp [hentry, hv]
  · simp [(h.above v (by omega)).2, hv]

theorem Copied.dense {m m' : Mem} (h : Copied m src d n m') : d.Dense n := by
  intro v
  by_cases hv : v < n
  · obtain ⟨pte, q, _, _, hentry, _⟩ := h.entry v hv
    simp [hentry, hv]
  · simp [h.above v (by omega), hv]

theorem PageDir.Dense.absent {v : Nat} (h : d.Dense n) (hv : n ≤ v) : d.present v = none := by
  have hnot := mt (h v).mp (by omega)
  simpa using hnot

theorem sound_born (h : Sound kend s)
    (hborn : Born s p c src src' d s') (hinv : Inv effective (InRange kend) s')
    (hflagged : Flagged s') (hdense : src'.Dense (pages (s.procs p).sz))
    (hdense' : d.Dense (pages (s.procs p).sz)) : Sound kend s' where
  inv := hinv
  kend := hborn.took.kend.trans h.kend
  flagged := hflagged
  full := by
    intro x
    by_cases hxc : x = c
    · obtain ⟨q, hchild⟩ := hborn.child
      rw [hxc, hchild]
      refine ⟨fun d' hd' => ?_, fun _ => ⟨rfl, rfl⟩⟩
      cases hd'
      exact hdense'
    · by_cases hxp : x = p
      · rw [hxp, hborn.parent]
        refine ⟨fun d' hd' => ?_, fun hlive => ⟨rfl, ((h.full p).live hlive).2⟩⟩
        cases hd'
        exact hdense
      · rw [hborn.others x hxp hxc]
        exact h.full x

theorem users_born (h : Sound kend s) (hborn : Born s p c src src' d s')
    (hsrc : src'.view s'.mem = src.view s.mem) (hd : d.view s'.mem = src.view s.mem) :
    s.users.fork p = (s'.users, .child c) := by
  unfold Users.fork
  rw [users_unusedSlot, hborn.slot]
  refine Prod.ext (Eq.symm (users_eq ?_ hborn.initproc)) rfl
  intro x
  by_cases hxc : x = c
  · obtain ⟨q, hchild⟩ := hborn.child
    subst hxc
    simp [hchild, Machine.users, hd, hborn.dir]
  · rw [Users.setProc_of_ne _ _ hxc]
    by_cases hxp : x = p
    · subst hxp
      simp [hborn.parent, Machine.users, hsrc, hborn.dir]
    · rw [hborn.others x hxp hxc]
      exact user_took h.inv x hborn.took

theorem Shared.view {m m' : Mem} (h : Shared src src' d n) (hsrc : src.Dense n)
    (hframe : ∀ v pte, src.present v = some pte → m'.frame pte.ppn = m.frame pte.ppn) :
    src'.view m' = src.view m ∧ d.view m' = src.view m := by
  constructor <;> funext v <;> unfold PageDir.view <;> by_cases hv : v < n
  · obtain ⟨pte, hpte, hentry, _⟩ := h.entry v hv
    simp [hpte, hentry, Pte.share, hframe v pte hpte]
  · rw [(h.above v (by omega)).1, hsrc.absent (Nat.le_of_not_lt hv)]
    rfl
  · obtain ⟨pte, hpte, _, hentry⟩ := h.entry v hv
    simp [hpte, hentry, Pte.share, hframe v pte hpte]
  · simp [(h.above v (by omega)).2, hsrc.absent (Nat.le_of_not_lt hv)]

theorem Copied.view {m m' : Mem} (h : Copied m src d n m') (hsrc : src.Dense n) :
    d.view m' = src.view m := by
  funext v
  unfold PageDir.view
  by_cases hv : v < n
  · obtain ⟨pte, q, hpte, _, hentry, hframe⟩ := h.entry v hv
    simp [hpte, hentry, hframe]
  · simp [h.above v (by omega), hsrc.absent (Nat.le_of_not_lt hv)]

theorem users_noSlot (hslot : s.unusedSlot = none) : s.users.fork p = (s.users, .failed) := by
  unfold Users.fork
  rw [users_unusedSlot, hslot]

theorem cowFork_users (h : Sound kend s) (hp : (s.procs p).state = .runnable)
    (hcall : cowFork s p = some (s', out)) (hcalm : s'.mem.kfailed = false) :
    Sound kend s' ∧ s.users.fork p = (s'.users, out) := by
  have hinv := inv_cowFork h.inv hp (fun hfailed => by simp [hcalm] at hfailed) hcall
  rcases cowFork_calm h.inv hp hcall hcalm with ⟨rfl, rfl, hslot⟩ |
    ⟨c, src, src', d, rfl, hborn, hrefs, hshared⟩
  · exact ⟨h, users_noSlot hslot⟩
  · have hsrc := (h.full p).dense src hborn.dir
    obtain ⟨hdense, hdense'⟩ := hshared.dense hsrc
    obtain ⟨hview, hview'⟩ := hshared.view hsrc fun v pte hpte =>
      hborn.took.frame _ (h.inv.frame_free hborn.dir hpte)
    exact ⟨sound_born h hborn hinv (flagged_shared h.flagged h.inv hinv hborn hrefs hshared)
      hdense hdense', users_born h hborn hview hview'⟩

theorem fork_users (h : Sound kend s) (hp : (s.procs p).state = .runnable)
    (hcall : fork s p = some (s', out)) (hcalm : s'.mem.kfailed = false) :
    Sound kend s' ∧ s.users.fork p = (s'.users, out) := by
  have hinv := inv_fork h.inv hp hcall
  rcases fork_calm h.inv hp hcall hcalm with ⟨rfl, rfl, hslot⟩ | ⟨c, src, d, rfl, hborn, hcopied⟩
  · exact ⟨h, users_noSlot hslot⟩
  · have hsrc := (h.full p).dense src hborn.dir
    have hview : src.view s'.mem = src.view s.mem := view_congr fun v pte hpte =>
      hborn.took.frame _ (h.inv.frame_free hborn.dir hpte)
    exact ⟨sound_born h hborn hinv (flagged_copied h.flagged h.inv hinv hborn hcopied) hsrc
      hcopied.dense, users_born h hborn hview (hcopied.view hsrc)⟩

end

section

variable {kend : Nat} {s s' : Machine} {p : Slot} {out : Outcome}

theorem growSize_le {sz : Nat} {n : Int} : sz ≤ growSize sz n := by
  unfold growSize
  split_ifs <;> omega

theorem Ready.full_newDir {d : PageDir} {x : Proc} {m : Mem} (h : Ready kend s)
    (hpgdir : x.pgdir = some d) (hkstack : x.kstack = (s.procs p).kstack)
    (hstate : x.state = (s.procs p).state) (hdense : d.Dense (pages x.sz)) :
    ∀ y, (({ s.setProc p x with mem := m } : Machine).procs y).Full := by
  intro y
  by_cases hyp : y = p
  · subst hyp
    simp only [setProc_self]
    refine ⟨fun d' hd' => ?_, fun hlive => ?_⟩
    · rw [hpgdir] at hd'
      cases hd'
      exact hdense
    · rw [hstate] at hlive
      rw [hpgdir, hkstack]
      exact ⟨rfl, ((h.full y).live hlive).2⟩
  · simp only [setProc_of_ne s x hyp]
    exact h.full y

theorem sbrk_users {n : Int} (h : Sound kend s) (hn : 0 ≤ n)
    (hcall : growproc s p n = some (s', out)) (hcalm : s'.mem.kfailed = false) :
    Sound kend s' ∧ s.users.sbrk p n = (s'.users, out) := by
  have hinv := inv_growproc h.inv (fun _ hfailed => by simp [hcalm] at hfailed)
    (fun hneg => absurd hneg (by omega)) hcall
  obtain ⟨d, d', hd, hout, hs', hgrown⟩ := growproc_calm h.inv hn hcall hcalm
  have hdense := (h.full p).dense d hd
  have hmono : pages (s.procs p).sz ≤ pages (growSize (s.procs p).sz n) := pages_mono growSize_le
  have hdir : NewDir s p d d' s' := by
    rw [hs']
    exact newDir_setProc hd rfl
  have hdense' : d'.Dense (pages (growSize (s.procs p).sz n)) := by
    intro v
    by_cases hv : pages (s.procs p).sz ≤ v ∧ v < pages (growSize (s.procs p).sz n)
    · obtain ⟨_, q, _, hentry, _⟩ := hgrown.entry v hv.1 hv.2
      simp [hentry, hv.2]
    · rw [hgrown.outside v (by omega), hdense v]
      omega
  refine ⟨⟨⟨hinv, hgrown.took.kend.trans h.kend, ?_⟩,
    flagged_grown h.flagged h.inv hinv hdir hgrown⟩, ?_⟩
  · rw [hs']
    exact h.toReady.full_newDir rfl rfl rfl hdense'
  · refine Prod.ext (Eq.symm (users_eq ?_ ?_)) hout.symm
    · intro x
      by_cases hxp : x = p
      · have hview : d'.view s'.mem = fun v =>
            if pages (s.procs p).sz ≤ v ∧ v < pages (growSize (s.procs p).sz n) then
              some (zeroPage, true)
            else d.view s.mem v := by
          funext v
          unfold PageDir.view
          split_ifs with hv
          · obtain ⟨_, q, _, hentry, hframe⟩ := hgrown.entry v hv.1 hv.2
            simp [hentry, hframe, userFlags]
          · rw [hgrown.outside v (by omega)]
            exact congrFun (view_congr fun u pte hpte =>
              hgrown.took.frame _ (h.inv.frame_free hd hpte)) v
        have hself : s'.procs p = { s.procs p with
            pgdir := some d', sz := growSize (s.procs p).sz n } := by
          rw [hs']
          exact setProc_self s p _
        subst hxp
        rw [hself]
        simp [Users.sbrk, hview, Machine.users, hd]
      · have hother : s'.procs x = s.procs x := by
          rw [hs']
          exact setProc_of_ne s _ hxp
        rw [hother, user_took h.inv x hgrown.took]
        exact (Users.setProc_of_ne s.users _ hxp).symm
    · rw [hs']
      rfl

theorem users_reparent (s : Machine) (p : Slot) (x : Proc) :
    (reparent s p x).user s.mem = s.users.adopt p (x.user s.mem) := by
  by_cases hx : x.parent = some p
  · simp [reparent, Users.adopt, Machine.users, hx]
  · simp [reparent, Users.adopt, hx]

theorem exit_users (hexit : exit s p = some s') : s.users.exit p = some s'.users := by
  obtain ⟨hinit, hmem, hinit', hself, hothers⟩ := exit_cases hexit
  unfold Users.exit
  rw [if_neg (by exact hinit)]
  refine congrArg some (Eq.symm (users_eq ?_ hinit'))
  intro x
  rw [hmem]
  by_cases hxp : x = p
  · subst hxp
    simp only [hself, update_self]
    exact congrArg (fun user : User => { user with state := .zombie })
      (users_reparent s x (s.procs x))
  · simp only [hothers x hxp, update_of_ne hxp]
    exact users_reparent s p (s.procs x)

theorem Ready.full_exit (h : Ready kend s) (hexit : exit s p = some s')
    (hp : (s.procs p).state = .runnable) (x : Slot) : (s'.procs x).Full := by
  obtain ⟨_, _, _, hself, hothers⟩ := exit_cases hexit
  obtain ⟨hpgdir, hkstack, hsz, hstate, _⟩ := reparent_same s p (s.procs x)
  by_cases hxp : x = p
  · subst hxp
    rw [hself]
    refine ⟨fun d hd => ?_, fun _ => ?_⟩
    · simp only [hpgdir] at hd
      simp only [hsz]
      exact (h.full x).dense d hd
    · simp only [hpgdir, hkstack]
      exact (h.full x).live (Or.inl hp)
  · rw [hothers x hxp]
    refine ⟨fun d hd => ?_, fun hlive => ?_⟩
    · rw [hpgdir] at hd
      rw [hsz]
      exact (h.full x).dense d hd
    · rw [hstate] at hlive
      rw [hpgdir, hkstack]
      exact (h.full x).live hlive

theorem sound_exit (h : Sound kend s) (hp : (s.procs p).state = .runnable)
    (hexit : exit s p = some s') : Sound kend s' where
  inv := inv_exit h.inv hexit
  kend := by rw [(exit_cases hexit).2.1, h.kend]
  full := h.toReady.full_exit hexit hp
  flagged := flagged_congr h.flagged (exit_pgdir hexit)

theorem wait_users (h : Sound kend s) (hcall : cowWait s p = some (s', out)) :
    Sound kend s' ∧ s.users.wait p = (s'.users, out) := by
  have hinv := inv_cowWait h.inv hcall
  unfold Users.wait
  rw [users_zombieChild]
  rcases waitWith_cases hcall with ⟨hzombie, rfl, hout⟩ |
    ⟨c, q, d, m1, m2, hzombie, rfl, hkstack, hpgdir, hm1, hm2, hs'⟩
  · rw [hzombie, hout]
    exact ⟨h, rfl⟩
  · have hgave : s.mem.Gave s'.mem := by
      rw [hs']
      exact (gave_kfree hm1).trans (gave_cowFreevm hm2)
    have hself : s'.procs c = { s.procs c with
        kstack := none, pgdir := none, state := .unused, parent := none, killed := false } := by
      rw [hs']
      exact setProc_self s c _
    have hothers : ∀ x, x ≠ c → s'.procs x = s.procs x := by
      intro x hx
      rw [hs']
      exact setProc_of_ne s _ hx
    refine ⟨⟨⟨hinv, hgave.kend.trans h.kend, fun x => ?_⟩, flagged_reaped h.flagged hinv rfl hs'⟩,
      ?_⟩
    · by_cases hxc : x = c
      · rw [hxc, hself]
        exact ⟨by simp, by simp⟩
      · rw [hothers x hxc]
        exact h.full x
    · rw [hzombie]
      refine Prod.ext (Eq.symm (users_eq ?_ ?_)) rfl
      · intro x
        by_cases hxc : x = c
        · subst hxc
          simp [hself, Machine.users]
        · rw [user_gave hinv x hgave, hothers x hxc]
          exact (Users.setProc_of_ne s.users _ hxc).symm
      · rw [hs']
        rfl

end

section

variable {kend : Nat} {s s' : Machine} {p : Slot} {d d' : PageDir} {m : Mem} {out : Outcome}
  {va : Nat}

variable {pte : Pte}

theorem cowCopyuvm_refused {sz : Nat} {m' : Mem} (h : cowCopyuvm m d va sz = (false, d', m'))
    (hcalm : m'.kfailed = false) (hva : va < sz)
    (hpte : d.present (va / pgsize) = some pte) : pte.flags.sh = false := by
  by_contra hsh
  unfold cowCopyuvm at h
  simp only [(present_eq_some.mp hpte).1, hva, and_true] at h
  rw [if_pos (by simpa using hsh)] at h
  split at h
  · split at h
    · rename_i hfail
      cases h
      rw [(lost_kalloc hfail).failed] at hcalm
      cases hcalm
    · cases h
  · cases h

theorem Unshares.took {v : Nat} (h : Unshares s d v pte d' m) : s.mem.Took m := by
  rcases h.moved with ⟨q, _, _, _, htook, _⟩ | ⟨_, _, rfl⟩
  · exact htook
  · exact Mem.Took.refl _

theorem Unshares.view {read : ℤ → ℤ} {valid : Nat → Prop} {v : Nat}
    (h : Inv read valid s) (hd : (s.procs p).pgdir = some d) (hfault : Unshares s d v pte d' m) :
    d'.view m = d.view s.mem := by
  have hold : d.view m = d.view s.mem :=
    view_congr fun u pte' hpte' => hfault.took.frame _ (h.frame_free hd hpte')
  rw [← hold]
  funext u
  unfold PageDir.view
  by_cases huv : u = v
  · subst huv
    rw [hfault.entry]
    rcases hfault.moved with ⟨q, _, _, hentry, htook, hframe⟩ | ⟨_, hentry, _⟩
    · simp [hentry, hframe, Pte.unshare, htook.frame _ (h.frame_free hd hfault.entry)]
    · simp [hentry, Pte.unshare]
  · rw [hfault.others u huv]

theorem retry_users (h : Sound kend s) (hfault : pgfault s p va = some (s', .retry)) :
    Sound kend s' ∧ s'.users = s.users := by
  have hinv := inv_pgfault h.inv hfault
  obtain ⟨d, ok, d', m, hd, hcopy, ⟨rfl, _, rfl⟩ | ⟨_, hout, _⟩⟩ := pgfault_cases hfault
  · obtain ⟨pte, hunshares⟩ := (cowCopyuvm_copies hcopy).unshares h.inv hd
    have hdir : NewDir s p d d' { s.setDir p d' with mem := m } := newDir_setProc hd rfl
    have hdense : d'.Dense (pages (s.procs p).sz) := by
      intro v
      rw [← (h.full p).dense d hd v]
      by_cases hv : v = va / pgsize
      · rw [hv, hunshares.entry]
        rcases hunshares.moved with ⟨q, _, _, hentry, _⟩ | ⟨_, hentry, _⟩ <;> simp [hentry]
      · rw [hunshares.others v hv]
    refine ⟨⟨⟨hinv, hunshares.took.kend.trans h.kend, ?_⟩,
      flagged_fault h.flagged h.inv hinv hdir hunshares⟩, users_eq ?_ rfl⟩
    · exact h.toReady.full_newDir rfl rfl rfl hdense
    · intro x
      by_cases hxp : x = p
      · subst hxp
        simp [Machine.setDir, Machine.users, hd, hunshares.view h.inv hd]
      · simp only [setDir_of_ne hxp]
        exact user_took h.inv x hunshares.took
  · cases hout

theorem kill_users (h : Sound kend s) (hp : (s.procs p).state = .runnable)
    (hfault : pgfault s p va = some (s', .killed)) (hcalm : s'.mem.kfailed = false) :
    Sound kend s' ∧ s.users.kill p = some (s'.users, .killed) := by
  obtain ⟨d, ok, d', m, hd, hcopy, ⟨_, hout, _⟩ | ⟨rfl, _, hexit⟩⟩ := pgfault_cases hfault
  · cases hout
  · obtain ⟨_, hmem, _⟩ := exit_cases hexit
    obtain ⟨rfl, rfl⟩ := (cowCopyuvm_copies hcopy).refused_calm (by rw [← hcalm, hmem])
    have hmarked : Sound kend { s.setProc p { s.procs p with
        pgdir := some d', killed := true } with mem := s.mem } := by
      refine ⟨⟨?_, h.kend, ?_⟩, flagged_congr h.flagged fun c => ?_⟩
      · exact inv_newDir h.inv hd rfl rfl rfl (h.inv.wf p d' hd) (h.inv.size p)
          (h.inv.books_dir hd)
      · exact h.toReady.full_newDir rfl rfl rfl ((h.full p).dense d' hd)
      · by_cases hcp : c = p
        · simp [hcp, hd]
        · simp [Machine.setProc, hcp]
    have husers : ({ s.setProc p { s.procs p with
        pgdir := some d', killed := true } with mem := s.mem } : Machine).users =
        s.users.setProc p { s.users.procs p with killed := true } := by
      refine users_eq (fun x => ?_) rfl
      by_cases hxp : x = p
      · subst hxp
        simp [Machine.users, hd]
      · rw [Users.setProc_of_ne _ _ hxp]
        simp [Machine.setProc, hxp, Machine.users]
    refine ⟨sound_exit hmarked ?_ hexit, ?_⟩
    · simpa using hp
    · unfold Users.kill
      rw [← husers, exit_users hexit]
      rfl

theorem users_page (hd : (s.procs p).pgdir = some d) :
    s.users.page p va = (d.present (va / pgsize)).bind fun pte =>
      if pte.flags.u then some (s.mem.frame pte.ppn) else none := by
  simp only [Users.page, Machine.users, Proc.user, hd, Option.map_some, Option.bind_some,
    PageDir.view]
  cases d.present (va / pgsize) with
  | none | some pte => rfl

theorem users_page_none (hd : (s.procs p).pgdir = some d)
    (h : ∀ pte, d.present (va / pgsize) = some pte → pte.flags.u = false) :
    s.users.page p va = none := by
  rw [users_page hd]
  cases hpte : d.present (va / pgsize) with
  | none => rfl
  | some pte => simp [h pte hpte]

theorem load_users (h : Sound kend s) (hp : (s.procs p).state = .runnable)
    (hcall : load s p va = some (s', out)) (hcalm : s'.mem.kfailed = false) :
    Sound kend s' ∧ (out = .retry ∧ s'.users = s.users ∨
      out ≠ .retry ∧ s.users.load p va = some (s'.users, out)) := by
  rcases load_cases hcall with ⟨d, pte, hd, hpte, hu, rfl, rfl⟩ | ⟨hnot, hfault⟩
  · refine ⟨h, Or.inr ⟨by simp, ?_⟩⟩
    simp [Users.load, users_page hd, hpte, hu]
  · obtain ⟨d, ok, d', m, hd, _, ⟨_, rfl, _⟩ | ⟨_, rfl, _⟩⟩ := pgfault_cases hfault
    · obtain ⟨hsound, husers⟩ := retry_users h hfault
      exact ⟨hsound, Or.inl ⟨rfl, husers⟩⟩
    · obtain ⟨hsound, hkill⟩ := kill_users h hp hfault hcalm
      refine ⟨hsound, Or.inr ⟨by simp, ?_⟩⟩
      unfold Users.load
      rw [users_page_none hd (fun pte => hnot d pte hd)]
      exact hkill

theorem view_written (m : Mem) (byte : UInt8) {v : Nat} (off : Fin pgsize)
    (hpte : d.present v = some pte)
    (hframe : ∀ u pte', d.present u = some pte' → u ≠ v → pte'.ppn ≠ pte.ppn) :
    d.view (m.writeByte pte.ppn off byte) = update (d.view m) v
      (some (update (m.frame pte.ppn) off byte, pte.flags.u)) := by
  funext u
  by_cases huv : u = v
  · rw [huv, update_self]
    simp [PageDir.view, hpte, Mem.writeByte, Mem.setFrame]
  · rw [update_of_ne huv]
    unfold PageDir.view
    cases hpte' : d.present u with
    | none => rfl
    | some pte' => simp [Mem.writeByte, Mem.setFrame, hframe u pte' hpte' huv]

variable {byte : UInt8}

theorem sound_written (h : Sound kend s) (q : Nat) (off : Fin pgsize) :
    Sound kend { s with mem := s.mem.writeByte q off byte } :=
  ⟨⟨h.inv.withMem h.inv.books, h.kend, h.full⟩, flagged_congr h.flagged fun _ => rfl⟩

theorem Sound.writable_alone {x : Slot} {d' : PageDir} {u v : Nat} {pte' : Pte}
    (h : Sound kend s) (hentry : s.entry p v = some pte) (hw : pte.flags.w = true)
    (hd' : (s.procs x).pgdir = some d') (hpte' : d'.present u = some pte')
    (hplace : x = p → u ≠ v) : pte'.ppn ≠ pte.ppn := by
  intro hppn
  have hone := (h.flagged p v pte hentry).1 hw
  have hentry' : s.entry x u = some pte' := by rw [entry_of_dir hd', hpte']
  obtain ⟨rfl, rfl⟩ := h.inv.entry_unique hone hentry hentry' hppn
  exact hplace rfl rfl

section

variable (h : Sound kend s) (hd : (s.procs p).pgdir = some d)
  (hpte : d.present (va / pgsize) = some pte) (hw : pte.flags.w = true)
include h hd hpte hw

/-- A byte written to a page with `PTE_W` changes the view of its process at that
page, and nothing else. -/
theorem written_user (x : Slot) :
    (s.procs x).user (s.mem.writeByte pte.ppn (offset va) byte) =
      if x = p then { (s.procs p).user s.mem with
        view := some (update (d.view s.mem) (va / pgsize)
          (some (update (s.mem.frame pte.ppn) (offset va) byte, pte.flags.u))) }
      else (s.procs x).user s.mem := by
  have hentry : s.entry p (va / pgsize) = some pte := by rw [entry_of_dir hd, hpte]
  by_cases hxp : x = p
  · subst hxp
    have hview := view_written s.mem byte (offset va) hpte
      fun u pte' hpte' hu => h.writable_alone hentry hw hd hpte' fun _ => hu
    simp only [Proc.user, hd, Option.map_some, hview, if_true]
  · rw [if_neg hxp]
    refine user_congr fun d' u pte' hd' hpte' => update_of_ne ?_ _ _
    exact h.writable_alone hentry hw hd' hpte' fun heq => absurd heq hxp

theorem written_users (hu : pte.flags.u = true) :
    s.users.store p va byte =
      some (({ s with mem := s.mem.writeByte pte.ppn (offset va) byte } : Machine).users,
        .stored) := by
  unfold Users.store
  simp only [users_page hd, hpte, Option.bind_some, hu, if_true]
  refine congrArg some (Prod.ext (Eq.symm (users_eq ?_ rfl)) rfl)
  intro x
  refine (written_user h hd hpte hw x).trans ?_
  by_cases hxp : x = p
  · rw [hxp, if_pos rfl, Users.setProc_self]
    simp only [Proc.user, Machine.users, hd, Option.map_some, hu]
  · rw [if_neg hxp, Users.setProc_of_ne _ _ hxp]
    rfl

end

theorem store_users (h : Sound kend s) (hp : (s.procs p).state = .runnable)
    (hva : va < (s.procs p).sz) (hcall : store s p va byte = some (s', out))
    (hcalm : s'.mem.kfailed = false) :
    Sound kend s' ∧ (out = .retry ∧ s'.users = s.users ∨
      out ≠ .retry ∧ s.users.store p va byte = some (s'.users, out)) := by
  rcases store_cases hcall with ⟨d, pte, hd, hpte, hw, hu, rfl, rfl⟩ | ⟨hnot, hfault⟩
  · refine ⟨⟨⟨h.inv.withMem h.inv.books, h.kend, h.full⟩, flagged_congr h.flagged fun _ => rfl⟩,
      Or.inr ⟨by simp, written_users h hd hpte hw hu⟩⟩
  · obtain ⟨d, ok, d', m, hd, hcopy, ⟨_, rfl, _⟩ | ⟨rfl, rfl, hexit⟩⟩ := pgfault_cases hfault
    · obtain ⟨hsound, husers⟩ := retry_users h hfault
      exact ⟨hsound, Or.inl ⟨rfl, husers⟩⟩
    · obtain ⟨hsound, hkill⟩ := kill_users h hp hfault hcalm
      refine ⟨hsound, Or.inr ⟨by simp, ?_⟩⟩
      have hm : m.kfailed = false := by rw [← hcalm, (exit_cases hexit).2.1]
      unfold Users.store
      rw [users_page_none hd ?_]
      · exact hkill
      · intro pte hpte
        have hsh := cowCopyuvm_refused hcopy hm hva hpte
        refine hnot d pte hd hpte ?_
        rw [(h.flagged p _ pte (by rw [entry_of_dir hd, hpte])).2, hsh]
        rfl

end

/-- Processes fork, grow, exit, reap with `cow_wait`, and access memory below
their size. -/
def ForkGuard (s : Machine) : Slot × Act → Prop
  | (_, .fork) => True
  | (_, .cowFork) => True
  | (_, .exit) => True
  | (_, .cowWait) => True
  | (_, .sbrk n) => 0 ≤ n
  | (p, .load va) => va < (s.procs p).sz
  | (p, .store va _) => va < (s.procs p).sz
  | _ => False

def Act.eager : Act → Act
  | .cowFork => .fork
  | a => a

/-- The event of the reference machine: `fork` instead of `cow_fork`, and no
return from a page fault. -/
def seen (event : (Slot × Act) × Outcome) : Option ((Slot × Act) × Outcome) :=
  if event.2 = .retry then none else some ((event.1.1, event.1.2.eager), event.2)

section

variable {kend : Nat} {s s' : Machine} {p : Slot} {out : Outcome}

theorem seen_of_ne {label : Slot × Act} (h : out ≠ .retry) :
    seen (label, out) = some ((label.1, label.2.eager), out) :=
  if_neg h

theorem wait_ne_retry (h : cowWait s p = some (s', out)) : out ≠ .retry := by
  rcases waitWith_cases h with ⟨_, _, rfl⟩ | ⟨c, q, d, m1, m2, _, rfl, _⟩
  · split <;> simp
  · simp

theorem forkWith_ne_retry {dup} (h : forkWith dup s p = some (s', out)) : out ≠ .retry := by
  cases forkWith_forks h <;> simp

theorem growproc_ne_retry {n : Int} (h : growproc s p n = some (s', out)) : out ≠ .retry := by
  obtain ⟨d, sz, d', m, _, _, ⟨_, _, rfl, _⟩ | ⟨_, rfl, _⟩⟩ := growproc_cases h <;> simp

/-- Every step is one of the private machine, or a hidden return from a fault. -/
theorem step_users {label : Slot × Act} (h : Sound kend s) (hguard : ForkGuard s label)
    (hstep : stepOut s label = some (s', out)) (hcalm : s'.mem.kfailed = false) :
    Sound kend s' ∧ Follows Users.step s.users s'.users (seen (label, out)) := by
  obtain ⟨p, a⟩ := label
  obtain ⟨hp, hact⟩ := Option.ite_none_right_eq_some.mp hstep
  have hlive : (s.users.procs p).state = .runnable := hp
  cases a with
  | fork =>
    have hact : fork s p = some (s', out) := hact
    obtain ⟨hsound, husers⟩ := fork_users h hp hact hcalm
    rw [seen_of_ne (forkWith_ne_retry hact)]
    exact ⟨hsound, by simp [Act.eager, hlive, husers]⟩
  | cowFork =>
    have hact : cowFork s p = some (s', out) := hact
    obtain ⟨hsound, husers⟩ := cowFork_users h hp hact hcalm
    rw [seen_of_ne (forkWith_ne_retry hact)]
    exact ⟨hsound, by simp [Act.eager, hlive, husers]⟩
  | exit =>
    obtain ⟨s1, hexit, hresult⟩ := Option.map_eq_some_iff.mp hact
    cases hresult
    exact ⟨sound_exit h hp hexit, by simp [seen, Act.eager, hlive, exit_users hexit]⟩
  | wait => exact hguard.elim
  | cowWait =>
    obtain ⟨hsound, husers⟩ := wait_users h hact
    rw [seen_of_ne (wait_ne_retry hact)]
    exact ⟨hsound, by simp [Act.eager, hlive, husers]⟩
  | exec img => exact hguard.elim
  | sbrk n =>
    have hn : 0 ≤ n := hguard
    obtain ⟨hsound, husers⟩ := sbrk_users h hn hact hcalm
    rw [seen_of_ne (growproc_ne_retry hact)]
    exact ⟨hsound, by simp [Act.eager, hlive, hn, husers]⟩
  | load va =>
    have hva : va < (s.users.procs p).sz := hguard
    obtain ⟨hsound, ⟨rfl, husers⟩ | ⟨hne, husers⟩⟩ := load_users h hp hact hcalm
    · exact ⟨hsound, husers⟩
    · rw [seen_of_ne hne]
      exact ⟨hsound, by simp [Act.eager, hlive, hva, husers]⟩
  | store va byte =>
    have hva : va < (s.users.procs p).sz := hguard
    obtain ⟨hsound, ⟨rfl, husers⟩ | ⟨hne, husers⟩⟩ := store_users h hp hva hact hcalm
    · exact ⟨hsound, husers⟩
    · rw [seen_of_ne hne]
      exact ⟨hsound, by simp [Act.eager, hlive, hva, husers]⟩

end

end Xv6.Vm
