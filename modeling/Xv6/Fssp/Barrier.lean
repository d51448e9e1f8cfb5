import Xv6.Lib.Lock
import Xv6.Lib.Tally
import Xv6.Mutex.Table

/-! The barrier of `fssp.c`, over kernel mutexes that behave as binary
semaphores. Every lock, unlock, load and store is a step of its own. The two
mutexes pass one baton: either one of them is unlocked or one thread is between
a lock and the next unlock. -/
namespace Xv6.Fssp.Barrier
open Function Transition Lock Tally Mutex

inductive Pc where
  | out
  | lockPre
  | incLoad
  | incStore (counter : Int)
  | incTest
  /-- `limit > counter`: unlock `pre_mx` for the next thread. -/
  | passPre
  /-- `limit == counter`: unlock `post_mx`. -/
  | openPost
  | lockPost
  | decLoad
  | decStore (counter : Int)
  | decTest
  /-- `counter > 0`: unlock `post_mx` for the next thread. -/
  | passPost
  /-- `counter == 0`: unlock `pre_mx`. -/
  | openPre
deriving DecidableEq, Repr

variable {ι : Type*}

/-- The `barrier` and the threads that use it. `entered` and `returned` are not
program data: they count the calls of each thread. -/
structure State (ι : Type*) where
  preMx : MxState
  postMx : MxState
  counter : Int
  limit : Int
  pc : ι → Pc
  entered : ι → Nat
  returned : ι → Nat

/-- `init_barrier`: two fresh mutexes, the second one locked. -/
def initBarrier (limit : Int) : State ι where
  preMx := .unlocked
  postMx := .locked
  counter := 0
  limit := limit
  pc := fun _ => .out
  entered := fun _ => 0
  returned := fun _ => 0

inductive Act (ι : Type*) where
  | enter (t : ι)
  | go (t : ι)
deriving DecidableEq

section

variable [DecidableEq ι]

def State.goto (s : State ι) (t : ι) (pc : Pc) : State ι :=
  { s with pc := update s.pc t pc }

def State.return (s : State ι) (t : ι) : State ι :=
  { s.goto t .out with returned := update s.returned t (s.returned t + 1) }

def incBarrier (s : State ι) (t : ι) : Pc → Option (State ι)
  | .out => none
  | .lockPre =>
    if s.preMx = .unlocked then some ({ s with preMx := .locked }.goto t .incLoad) else none
  | .incLoad => some (s.goto t (.incStore s.counter))
  | .incStore counter => some ({ s with counter := counter + 1 }.goto t .incTest)
  | .incTest => some (s.goto t (if s.limit > s.counter then .passPre else .openPost))
  | .passPre => some ({ s with preMx := .unlocked }.goto t .lockPost)
  | .openPost => some ({ s with postMx := .unlocked }.goto t .lockPost)
  | .lockPost =>
    if s.postMx = .unlocked then some ({ s with postMx := .locked }.goto t .decLoad) else none
  | .decLoad => some (s.goto t (.decStore s.counter))
  | .decStore counter => some ({ s with counter := counter - 1 }.goto t .decTest)
  | .decTest => some (s.goto t (if s.counter > 0 then .passPost else .openPre))
  | .passPost => some ({ s with postMx := .unlocked }.return t)
  | .openPre => some ({ s with preMx := .unlocked }.return t)

def step (s : State ι) : Act ι → Option (State ι)
  | .enter t =>
    if s.pc t = .out then
      some { s.goto t .lockPre with entered := update s.entered t (s.entered t + 1) }
    else none
  | .go t => incBarrier s t (s.pc t)

end

def Pc.accesses : Pc → Prop
  | .incLoad | .incStore _ | .incTest | .decLoad | .decStore _ | .decTest => True
  | _ => False

def Pc.inside : Pc → Prop
  | .out | .lockPre | .lockPost => False
  | _ => True

def Pc.counted : Pc → Bool
  | .incTest | .passPre | .openPost | .lockPost | .decLoad | .decStore _ => true
  | _ => false

inductive Phase where
  | fill
  | drain
deriving DecidableEq

/-- What holds of a thread at a position, in a round of the barrier. -/
def Pc.ok (phase : Phase) (round : Nat) (counter limit : Int) (returned : Nat) : Pc → Prop
  | .out | .lockPre =>
    phase = .fill ∧ returned = round ∨ phase = .drain ∧ returned = round + 1
  | .incLoad | .incTest => phase = .fill ∧ returned = round
  | .incStore c => phase = .fill ∧ returned = round ∧ c = counter
  | .passPre => phase = .fill ∧ returned = round ∧ counter < limit
  | .openPost => phase = .fill ∧ returned = round ∧ counter = limit
  | .lockPost => returned = round
  | .decLoad | .decTest => phase = .drain ∧ returned = round
  | .decStore c => phase = .drain ∧ returned = round ∧ c = counter
  | .passPost => phase = .drain ∧ returned = round ∧ 0 < counter
  | .openPre => phase = .drain ∧ returned = round ∧ counter = 0

attribute [local simp] Pc.counted Pc.inside State.goto Pc.ok State.return initBarrier

def Pc.rank : Pc → Nat
  | .out => 0
  | .passPost | .openPre => 1
  | .decTest => 2
  | .decStore _ => 3
  | .decLoad => 4
  | .lockPost => 5
  | .passPre | .openPost => 6
  | .incTest => 7
  | .incStore _ => 8
  | .incLoad => 9
  | .lockPre => 10

def Act.thread : Act ι → ι
  | .enter t => t
  | .go t => t

variable {s s' : State ι} {phase phase' : Phase} {round round' : Nat} {owner owner' : Option ι}
  {t u : ι} {pc : Pc} {counter : Int}

section

variable [DecidableEq ι]

theorem step_others {a : Act ι} (hstep : step s a = some s') (hu : u ≠ a.thread) :
    s'.pc u = s.pc u ∧ s'.returned u = s.returned u := by
  cases a with
  | enter t =>
    obtain ⟨_, rfl⟩ := taken hstep
    exact ⟨update_of_ne hu _ _, rfl⟩
  | go t =>
    simp only [step] at hstep
    cases hpc : s.pc t with
    | out => simp [hpc, incBarrier] at hstep
    | lockPre | lockPost =>
      rw [hpc] at hstep
      obtain ⟨_, rfl⟩ := taken hstep
      exact ⟨update_of_ne hu _ _, rfl⟩
    | passPost | openPre =>
      rw [hpc] at hstep
      cases hstep
      exact ⟨update_of_ne hu _ _, update_of_ne hu _ _⟩
    | _ =>
      rw [hpc] at hstep
      cases hstep
      exact ⟨update_of_ne hu _ _, rfl⟩

theorem step_enter (hstep : step s (.enter t) = some s') :
    s.pc t = .out ∧ s'.pc t = .lockPre ∧ s'.returned t = s.returned t := by
  obtain ⟨hpc, rfl⟩ := taken hstep
  exact ⟨hpc, by simp, rfl⟩

theorem step_go (hstep : step s (.go t) = some s') :
    (s'.pc t).rank < (s.pc t).rank ∧
      (s'.pc t ≠ .out ∧ s'.returned t = s.returned t ∨
        s'.pc t = .out ∧ s'.returned t = s.returned t + 1) := by
  simp only [step] at hstep
  cases hpc : s.pc t with
  | out => simp [hpc, incBarrier] at hstep
  | lockPre | lockPost =>
    rw [hpc] at hstep
    obtain ⟨_, rfl⟩ := taken hstep
    simp [Pc.rank]
  | passPost | openPre =>
    rw [hpc] at hstep
    cases hstep
    simp [Pc.rank]
  | incTest | decTest =>
    rw [hpc] at hstep
    cases hstep
    simp only [State.goto, update_self]
    split <;> simp [Pc.rank]
  | _ =>
    rw [hpc] at hstep
    cases hstep
    simp [Pc.rank]

end

variable [Fintype ι]

/-- `owner` is the thread that has the baton, `none` when a mutex has it. -/
structure InvAt (s : State ι) (phase : Phase) (round : Nat) (owner : Option ι) : Prop where
  agrees : Agrees owner Pc.inside s.pc
  pre : s.preMx = if owner = none ∧ phase = .fill then .unlocked else .locked
  post : s.postMx = if owner = none ∧ phase = .drain then .unlocked else .locked
  limit : s.limit = Fintype.card ι
  counter : s.counter = tally Pc.counted s.pc
  room : owner = none → phase = .fill → s.counter < s.limit
  left : owner = none → phase = .drain → 0 < s.counter
  threads : ∀ t, (s.pc t).ok phase round s.counter s.limit (s.returned t)
  calls : ∀ t, s.entered t = s.returned t + if s.pc t = .out then 0 else 1

def Inv (s : State ι) : Prop := ∃ phase round owner, InvAt s phase round owner

theorem inv_initBarrier (hsome : 0 < Fintype.card ι) :
    Inv (initBarrier (Fintype.card ι) : State ι) := by
  refine ⟨.fill, 0, none, ?_⟩
  exact
    { agrees := by simp [Agrees]
      pre := rfl
      post := rfl
      limit := rfl
      counter := by
        rw [tally_eq_zero fun _ => rfl]
        rfl
      room := by simpa using hsome
      left := by simp
      threads := by simp
      calls := by simp }

theorem InvAt.others (h : InvAt s phase round owner) (hin : (s.pc t).inside) (hu : u ≠ t) :
    ¬ (s.pc u).inside :=
  fun hin' => hu (h.agrees.same hin' hin)

theorem InvAt.owner_eq (h : InvAt s phase round owner) (hin : (s.pc t).inside) : owner = some t :=
  (h.agrees t).mpr hin

theorem InvAt.entered_eq (h : InvAt s phase round owner) (hout : s.pc t ≠ .out) :
    s.entered t = s.returned t + 1 := by
  rw [h.calls t, if_neg hout]

theorem InvAt.all_arrived (h : InvAt s .fill round owner) (hin : (s.pc t).inside)
    (hfull : s.counter = s.limit) (hu : u ≠ t) : s.pc u = .lockPost := by
  have htally : tally Pc.counted s.pc = Fintype.card ι := by
    have hcounter := h.counter
    rw [hfull, h.limit] at hcounter
    exact_mod_cast hcounter.symm
  have hcounted := forall_of_tally htally u
  have hout := h.others hin hu
  cases hpc : s.pc u with
  | lockPost => rfl
  | out | lockPre => simp [hpc] at hcounted
  | _ => simp [hpc] at hout

theorem InvAt.all_left (h : InvAt s .drain round owner) (hin : (s.pc t).inside)
    (hempty : s.counter = 0) (hu : u ≠ t) : s.pc u = .out ∨ s.pc u = .lockPre := by
  have htally : tally Pc.counted s.pc = 0 := by
    have hcounter := h.counter
    rw [hempty] at hcounter
    exact_mod_cast hcounter.symm
  have hcounted := not_of_tally htally u
  have hout := h.others hin hu
  cases hpc : s.pc u with
  | lockPost => simp [hpc] at hcounted
  | out => exact .inl rfl
  | lockPre => exact .inr rfl
  | _ => simp [hpc] at hout

theorem Inv.returned_le (h : Inv s) (t u : ι) : s.returned t ≤ s.entered u := by
  obtain ⟨phase, round, owner, h⟩ := h
  have ht := h.threads t
  have hu := h.threads u
  have hcalls := h.calls u
  have hle : s.returned t ≤ if phase = .fill then round else round + 1 := by
    cases hpc : s.pc t <;> cases phase <;> simp [hpc] at ht ⊢ <;> omega
  have hge : (if phase = .fill then round else round + 1) ≤ s.entered u := by
    cases hpc : s.pc u <;> cases phase <;> simp [hpc] at hu hcalls ⊢ <;> omega
  exact hle.trans hge

theorem Inv.counter_range (h : Inv s) : 0 ≤ s.counter ∧ s.counter ≤ Fintype.card ι := by
  obtain ⟨phase, round, owner, h⟩ := h
  rw [h.counter]
  exact ⟨Int.natCast_nonneg _, Int.ofNat_le.mpr tally_le⟩

theorem Inv.accesses_same (h : Inv s) (ht : (s.pc t).accesses) (hu : (s.pc u).accesses) :
    t = u := by
  obtain ⟨phase, round, owner, h⟩ := h
  have hinside : ∀ {pc : Pc}, pc.accesses → pc.inside := by
    intro pc hpc
    cases pc <;> trivial
  exact h.agrees.same (hinside ht) (hinside hu)

theorem Inv.closed (h : Inv s) (hout : ∀ t, s.pc t = .out) :
    s.preMx = .unlocked ∧ s.postMx = .locked ∧ s.counter = 0 := by
  obtain ⟨phase, round, owner, h⟩ := h
  have hcounter : s.counter = 0 := by
    rw [h.counter, tally_eq_zero fun t => by rw [hout t]; rfl]
    rfl
  cases owner with
  | some t => exact absurd ((h.agrees t).mp rfl) (by simp [hout])
  | none =>
    cases phase with
    | fill => exact ⟨by simpa using h.pre, by simpa using h.post, hcounter⟩
    | drain => exact absurd (h.left rfl rfl) (by simp [hcounter])

theorem Inv.entered_eq (h : Inv s) (t : ι) :
    s.entered t = s.returned t + if s.pc t = .out then 0 else 1 := by
  obtain ⟨phase, round, owner, h⟩ := h
  exact h.calls t

variable [DecidableEq ι]

theorem Pc.ok_outside {c c' l : Int} {returned : Nat} (hout : ¬ pc.inside)
    (h : pc.ok phase round c l returned) : pc.ok phase round c' l returned := by
  cases pc with
  | out | lockPre | lockPost => exact h
  | _ => exact absurd trivial hout

/-- One thread moves; what is owed for the others is that their positions stay
right in the new phase. -/
theorem InvAt.move (h : InvAt s phase round owner) (hpc : s'.pc = update s.pc t pc)
    (hlimit : s'.limit = s.limit) (hothers : ∀ u, u ≠ t → s'.returned u = s.returned u ∧
      s'.entered u = s.entered u)
    (hagrees : Agrees owner' Pc.inside (update s.pc t pc))
    (hpre : s'.preMx = if owner' = none ∧ phase' = .fill then .unlocked else .locked)
    (hpost : s'.postMx = if owner' = none ∧ phase' = .drain then .unlocked else .locked)
    (hcounter : s'.counter = tally Pc.counted (update s.pc t pc))
    (hroom : owner' = none → phase' = .fill → s'.counter < s'.limit)
    (hleft : owner' = none → phase' = .drain → 0 < s'.counter)
    (hok : pc.ok phase' round' s'.counter s'.limit (s'.returned t))
    (hrest : ∀ u, u ≠ t → (s.pc u).ok phase' round' s'.counter s'.limit (s.returned u))
    (hcalls : s'.entered t = s'.returned t + if pc = .out then 0 else 1) :
    InvAt s' phase' round' owner' where
  agrees := by rwa [hpc]
  pre := hpre
  post := hpost
  limit := hlimit.trans h.limit
  counter := by rw [hcounter, hpc]
  room := hroom
  left := hleft
  threads := by
    intro u
    by_cases hu : u = t
    · subst hu
      rwa [hpc, update_self]
    · rw [hpc, update_of_ne hu, (hothers u hu).1]
      exact hrest u hu
  calls := by
    intro u
    by_cases hu : u = t
    · subst hu
      rwa [hpc, update_self]
    · rw [hpc, update_of_ne hu, (hothers u hu).1, (hothers u hu).2]
      exact h.calls u

theorem Pc.ne_out (hin : pc.inside) : pc ≠ .out := by
  rintro rfl
  exact hin

theorem InvAt.work (h : InvAt s phase round owner) (hin : (s.pc t).inside) (hpc : pc.inside)
    (hcounter : counter = tally Pc.counted (update s.pc t pc))
    (hok : pc.ok phase round counter s.limit (s.returned t)) :
    InvAt ({ s with counter := counter }.goto t pc) phase round owner := by
  have howner := h.owner_eq hin
  refine h.move rfl rfl (fun _ _ => ⟨rfl, rfl⟩) (h.agrees.keep rfl (iff_of_true hpc hin)) h.pre
    h.post hcounter ?_ ?_ hok ?_ ?_
  · simp [howner]
  · simp [howner]
  · intro u hu
    exact Pc.ok_outside (h.others hin hu) (h.threads u)
  · rw [if_neg (Pc.ne_out hpc)]
    exact h.entered_eq (Pc.ne_out hin)

theorem InvAt.enter (h : InvAt s phase round owner) (hpc : s.pc t = .out) :
    InvAt { s.goto t .lockPre with entered := update s.entered t (s.entered t + 1) }
      phase round owner := by
  have hkeep : tally Pc.counted (update s.pc t .lockPre) = tally Pc.counted s.pc :=
    tally_keep (by rw [hpc]; rfl)
  refine h.move rfl rfl ?_ (h.agrees.keep rfl (by simp [hpc])) h.pre h.post ?_ h.room h.left
    ?_ (fun u _ => h.threads u) ?_
  · intro u hu
    exact ⟨rfl, update_of_ne hu _ _⟩
  · rw [hkeep]
    exact h.counter
  · simpa [hpc] using h.threads t
  · have hcalls := h.calls t
    simp only [hpc, if_true] at hcalls
    simpa using hcalls

theorem InvAt.lock (h : InvAt s phase round none) {pre post : MxState} (hpre : pre = .locked)
    (hpost : post = .locked) (hin : pc.inside) (hout : s.pc t ≠ .out)
    (hcounted : pc.counted = (s.pc t).counted)
    (hok : pc.ok phase round s.counter s.limit (s.returned t)) :
    InvAt ({ s with preMx := pre, postMx := post }.goto t pc) phase round (some t) := by
  refine h.move rfl rfl (fun _ _ => ⟨rfl, rfl⟩) (h.agrees.acquire rfl hin)
    (by simpa using hpre) (by simpa using hpost) ?_ (by simp) (by simp)
    hok (fun u _ => h.threads u) ?_
  · rw [tally_keep hcounted]
    exact h.counter
  · rw [if_neg (Pc.ne_out hin)]
    exact h.entered_eq hout

section

variable (h : InvAt s phase round owner)
include h

theorem InvAt.lockPre (hpc : s.pc t = .lockPre)
    (hfree : s.preMx = .unlocked) :
    InvAt ({ s with preMx := .locked }.goto t .incLoad) phase round (some t) := by
  have hpre := h.pre
  rw [hfree] at hpre
  split at hpre
  · rename_i hbaton
    obtain ⟨rfl, rfl⟩ := hbaton
    have hpost : s.postMx = .locked := by simpa using h.post
    have hround : s.returned t = round := by simpa [hpc] using h.threads t
    exact h.lock rfl hpost trivial (by simp [hpc]) (by simp [hpc]) ⟨rfl, hround⟩
  · cases hpre

theorem InvAt.lockPost (hpc : s.pc t = .lockPost)
    (hfree : s.postMx = .unlocked) :
    InvAt ({ s with postMx := .locked }.goto t .decLoad) phase round (some t) := by
  have hpost := h.post
  rw [hfree] at hpost
  split at hpost
  · rename_i hbaton
    obtain ⟨rfl, rfl⟩ := hbaton
    have hpre : s.preMx = .locked := by simpa using h.pre
    have hround : s.returned t = round := by simpa [hpc] using h.threads t
    exact h.lock hpre rfl trivial (by simp [hpc]) (by simp [hpc]) ⟨rfl, hround⟩
  · cases hpost

theorem InvAt.pass {pre post : MxState} (hin : (s.pc t).inside)
    (hcounted : (s.pc t).counted = true)
    (hpre : pre = if phase' = .fill then .unlocked else .locked)
    (hpost : post = if phase' = .drain then .unlocked else .locked)
    (hroom : phase' = .fill → s.counter < s.limit) (hleft : phase' = .drain → 0 < s.counter)
    (hround : s.returned t = round)
    (hrest : ∀ u, u ≠ t → (s.pc u).ok phase' round s.counter s.limit (s.returned u)) :
    InvAt ({ s with preMx := pre, postMx := post }.goto t .lockPost) phase' round none := by
  refine h.move rfl rfl (fun _ _ => ⟨rfl, rfl⟩) (h.agrees.release rfl hin not_false)
    (by simpa using hpre) (by simpa using hpost) ?_ (fun _ => hroom)
    (fun _ => hleft) hround hrest ?_
  · rw [tally_keep (by rw [hcounted]; rfl)]
    exact h.counter
  · exact h.entered_eq (Pc.ne_out hin)

theorem InvAt.return {pre post : MxState} (hin : (s.pc t).inside)
    (hcounted : (s.pc t).counted = false)
    (hpre : pre = if phase' = .fill then .unlocked else .locked)
    (hpost : post = if phase' = .drain then .unlocked else .locked)
    (hroom : phase' = .fill → s.counter < s.limit) (hleft : phase' = .drain → 0 < s.counter)
    (hround : phase' = .fill ∧ s.returned t + 1 = round' ∨
      phase' = .drain ∧ s.returned t + 1 = round' + 1)
    (hrest : ∀ u, u ≠ t → (s.pc u).ok phase' round' s.counter s.limit (s.returned u)) :
    InvAt ({ s with preMx := pre, postMx := post }.return t) phase' round' none := by
  have hreturned : ({ s with preMx := pre, postMx := post }.return t).returned t =
      s.returned t + 1 := by simp
  refine h.move rfl rfl ?_ (h.agrees.release rfl hin not_false)
    (by simpa using hpre)
    (by simpa using hpost) ?_ (fun _ => hroom) (fun _ => hleft) ?_
    hrest ?_
  · intro u hu
    exact ⟨update_of_ne hu _ _, rfl⟩
  · rw [tally_keep (by rw [hcounted]; rfl)]
    exact h.counter
  · rw [hreturned]
    exact hround
  · rw [hreturned]
    exact h.entered_eq (Pc.ne_out hin)

end

theorem inv_incBarrier (h : InvAt s phase round owner) (hpc : s.pc t = pc)
    (hstep : incBarrier s t pc = some s') : Inv s' := by
  have hok := h.threads t
  have hlimit : 0 < s.limit := by
    rw [h.limit]
    exact_mod_cast Fintype.card_pos_iff.mpr ⟨t⟩
  rw [hpc] at hok
  cases pc with
  | out => cases hstep
  | lockPre =>
    obtain ⟨hfree, rfl⟩ := taken hstep
    exact ⟨phase, round, some t, h.lockPre hpc hfree⟩
  | incLoad =>
    cases hstep
    refine ⟨phase, round, owner, h.work (by simp [hpc]) trivial ?_ ⟨hok.1, hok.2, rfl⟩⟩
    rw [tally_keep (by simp [hpc])]
    exact h.counter
  | incStore c =>
    cases hstep
    obtain ⟨hfill, hround, rfl⟩ := hok
    refine ⟨phase, round, owner, h.work (by simp [hpc]) trivial ?_ ⟨hfill, hround⟩⟩
    rw [tally_join (by simp [hpc]) rfl, h.counter]
    rfl
  | incTest =>
    cases hstep
    refine ⟨phase, round, owner, h.work (by simp [hpc]) ?_ ?_ ?_⟩
    · split <;> trivial
    · rw [tally_keep (by split <;> simp [hpc])]
      exact h.counter
    · split
      · rename_i hlt
        exact ⟨hok.1, hok.2, hlt⟩
      · rename_i hge
        refine ⟨hok.1, hok.2, ?_⟩
        have hcounter := h.counter
        have hle : tally Pc.counted s.pc ≤ Fintype.card ι := tally_le
        have hlimit := h.limit
        omega
  | passPre =>
    cases hstep
    obtain ⟨rfl, hround, hroom⟩ := hok
    have hin : (s.pc t).inside := by simp [hpc]
    have hpost : s.postMx = .locked := by simpa [h.owner_eq hin] using h.post
    exact ⟨.fill, round, none, h.pass hin (by simp [hpc]) rfl hpost (fun _ => hroom)
      (by simp) hround fun u _ => h.threads u⟩
  | openPost =>
    cases hstep
    obtain ⟨rfl, hround, hfull⟩ := hok
    have hin : (s.pc t).inside := by simp [hpc]
    have hpre : s.preMx = .locked := by simpa [h.owner_eq hin] using h.pre
    refine ⟨.drain, round, none, h.pass hin (by simp [hpc]) hpre rfl (by simp)
      (fun _ => hfull ▸ hlimit) hround fun u hu => ?_⟩
    have hwaits := h.all_arrived hin hfull hu
    simpa [hwaits] using h.threads u
  | lockPost =>
    obtain ⟨hfree, rfl⟩ := taken hstep
    exact ⟨phase, round, some t, h.lockPost hpc hfree⟩
  | decLoad =>
    cases hstep
    refine ⟨phase, round, owner, h.work (by simp [hpc]) trivial ?_ ⟨hok.1, hok.2, rfl⟩⟩
    rw [tally_keep (by simp [hpc])]
    exact h.counter
  | decStore c =>
    cases hstep
    obtain ⟨hdrain, hround, rfl⟩ := hok
    refine ⟨phase, round, owner, h.work (by simp [hpc]) trivial ?_ ⟨hdrain, hround⟩⟩
    have hleave : tally Pc.counted (update s.pc t .decTest) + 1 = tally Pc.counted s.pc :=
      tally_leave (by simp [hpc]) rfl
    rw [h.counter, ← hleave]
    simp
  | decTest =>
    cases hstep
    refine ⟨phase, round, owner, h.work (by simp [hpc]) ?_ ?_ ?_⟩
    · split <;> trivial
    · rw [tally_keep (by split <;> simp [hpc])]
      exact h.counter
    · split
      · rename_i hpos
        exact ⟨hok.1, hok.2, hpos⟩
      · rename_i hzero
        refine ⟨hok.1, hok.2, ?_⟩
        have hcounter := h.counter
        omega
  | passPost =>
    cases hstep
    obtain ⟨rfl, hround, hpos⟩ := hok
    have hin : (s.pc t).inside := by simp [hpc]
    have hpre : s.preMx = .locked := by simpa [h.owner_eq hin] using h.pre
    exact ⟨.drain, round, none, h.return hin (by simp [hpc]) hpre rfl (by simp)
      (fun _ => hpos) (.inr ⟨rfl, by rw [hround]⟩) fun u _ => h.threads u⟩
  | openPre =>
    cases hstep
    obtain ⟨rfl, hround, hzero⟩ := hok
    have hin : (s.pc t).inside := by simp [hpc]
    have hpost : s.postMx = .locked := by simpa [h.owner_eq hin] using h.post
    refine ⟨.fill, round + 1, none, h.return hin (by simp [hpc]) rfl hpost
      (fun _ => hzero ▸ hlimit) (by simp) (.inl ⟨rfl, by rw [hround]⟩) fun u hu => ?_⟩
    have hout := h.threads u
    rcases h.all_left hin hzero hu with hu | hu <;> simpa [hu] using hout

theorem inv_step {a : Act ι} (h : Inv s) (hstep : step s a = some s') : Inv s' := by
  obtain ⟨phase, round, owner, h⟩ := h
  cases a with
  | enter t =>
    obtain ⟨hpc, rfl⟩ := taken hstep
    exact ⟨phase, round, owner, h.enter hpc⟩
  | go t => exact inv_incBarrier h rfl hstep

/-- When nobody inside can go on, everybody has made the same number of calls
and somebody has not come yet. -/
theorem Inv.stuck (h : Inv s) (hstuck : ∀ t, s.pc t ≠ .out → step s (.go t) = none) :
    ∃ u, s.pc u = .out ∧ ∀ t, s.returned t = s.returned u := by
  obtain ⟨phase, round, owner, h⟩ := h
  have houtside : ∀ t, s.pc t = .out ∨ s.pc t = .lockPre ∧ s.preMx = .locked ∨
      s.pc t = .lockPost ∧ s.postMx = .locked := by
    intro t
    by_cases hout : s.pc t = .out
    · exact .inl hout
    · have hnone := hstuck t hout
      have hpre := h.pre
      have hpost := h.post
      cases hpc : s.pc t <;> simp [step, hpc, incBarrier] at hnone hout ⊢
      · split at hpre <;> simp_all
      · split at hpost <;> simp_all
  have howner : owner = none := by
    cases owner with
    | none => rfl
    | some t =>
      have hin := (h.agrees t).mp rfl
      rcases houtside t with hpc | ⟨hpc, _⟩ | ⟨hpc, _⟩ <;> simp [hpc] at hin
  subst howner
  cases phase with
  | drain =>
    -- `post_mx` is unlocked and somebody waits for it
    have hpos : 0 < tally Pc.counted s.pc := by
      have hleft := h.left rfl rfl
      rw [h.counter] at hleft
      exact_mod_cast hleft
    obtain ⟨t, ht⟩ := exists_of_tally_pos hpos
    have hpost : s.postMx = .unlocked := by simpa using h.post
    rcases houtside t with hpc | ⟨hpc, _⟩ | ⟨_, hlocked⟩
    · simp [hpc] at ht
    · simp [hpc] at ht
    · simp [hpost] at hlocked
  | fill =>
    have hlt : tally Pc.counted s.pc < Fintype.card ι := by
      have hroom := h.room rfl rfl
      rw [h.counter, h.limit] at hroom
      exact_mod_cast hroom
    obtain ⟨u, hu⟩ := exists_of_tally_lt hlt
    have hpre : s.preMx = .unlocked := by simpa using h.pre
    have hround : ∀ t, s.returned t = round := by
      intro t
      have hok := h.threads t
      rcases houtside t with hpc | ⟨hpc, _⟩ | ⟨hpc, _⟩ <;> simpa [hpc] using hok
    rcases houtside u with hpc | ⟨_, hlocked⟩ | ⟨hpc, _⟩
    · exact ⟨u, hpc, fun t => (hround t).trans (hround u).symm⟩
    · simp [hpre] at hlocked
    · simp [hpc] at hu

/-- `inc_barrier` is a reusable barrier for any number of threads. -/
theorem inc_barrier_reusable {limit : Nat} (hlimit : 1 ≤ limit) {labels : List (Act (Fin limit))}
    {final : State (Fin limit)} (hrun : run step (initBarrier limit) labels = some final) :
    (∀ t u, final.returned t ≤ final.entered u) ∧
      (0 ≤ final.counter ∧ final.counter ≤ limit) ∧
      (∀ t u, (final.pc t).accesses → (final.pc u).accesses → t = u) ∧
      ((∀ t, final.pc t = .out) →
        final.preMx = .unlocked ∧ final.postMx = .locked ∧ final.counter = 0) := by
  have hcard : Fintype.card (Fin limit) = limit := Fintype.card_fin limit
  have hinit : Inv (initBarrier limit : State (Fin limit)) := by
    have hsome : Inv (initBarrier (Fintype.card (Fin limit)) : State (Fin limit)) :=
      inv_initBarrier (by rw [hcard]; exact hlimit)
    rwa [hcard] at hsome
  have hkeep : ∀ (s : State (Fin limit)) a next, Inv s → True → step s a = some next → Inv next :=
    fun s a next h _ hstep => inv_step h hstep
  have hfinal : Inv final :=
    run_invariant hkeep hinit (meets_of_forall (fun _ _ _ => trivial) _) hrun
  refine ⟨hfinal.returned_le, ?_, fun t u => hfinal.accesses_same, hfinal.closed⟩
  have hrange := hfinal.counter_range
  rwa [hcard] at hrange

def early : Fin 2 := ⟨0, Nat.zero_lt_two⟩
def late : Fin 2 := ⟨1, Nat.one_lt_two⟩

/-- Two threads, one of them back at `pre_mx` before the other has left. -/
def twoCalls : List (Act (Fin 2)) :=
  .enter early :: List.replicate 5 (.go early) ++ .enter late ::
    List.replicate 10 (.go late) ++ .enter late :: List.replicate 5 (.go early)

theorem inc_barrier_reusable_two_calls :
    ∃ final, run step (initBarrier (2 : Nat)) twoCalls = some final ∧
      final.returned early = 1 ∧ final.entered late = 2 ∧
      ∀ t u, final.returned t ≤ final.entered u := by
  obtain ⟨final, hrun, hreturned, hentered⟩ :
      ∃ final, run step (initBarrier (2 : Nat)) twoCalls = some final ∧
        final.returned early = 1 ∧ final.entered late = 2 := by
    decide +kernel
  exact ⟨final, hrun, hreturned, hentered, (inc_barrier_reusable (by decide) hrun).1⟩

/-- The barrier does not deadlock: a state in which nobody inside can go on is one in which
somebody has still to come, and all have returned from the same number of calls. -/
theorem inc_barrier_waits_for_missing {limit : Nat} (hlimit : 1 ≤ limit)
    {labels : List (Act (Fin limit))} {final : State (Fin limit)}
    (hrun : run step (initBarrier limit) labels = some final)
    (hstuck : ∀ t, final.pc t ≠ .out → step final (.go t) = none) :
    ∃ u, final.pc u = .out ∧ ∀ t, final.returned t = final.returned u := by
  have hinit : Inv (initBarrier (Fintype.card (Fin limit)) : State (Fin limit)) :=
    inv_initBarrier (by rwa [Fintype.card_fin])
  rw [Fintype.card_fin] at hinit
  have hkeep : ∀ (s : State (Fin limit)) a next, Inv s → True → step s a = some next → Inv next :=
    fun s a next h _ hstep => inv_step h hstep
  exact (run_invariant hkeep hinit (meets_of_forall (fun _ _ _ => trivial) _) hrun).stuck hstuck

theorem inc_barrier_waits_for_missing_second :
    ∃ final, run step (initBarrier (2 : Nat)) (twoCalls.take 6) = some final ∧
      ∃ u, final.pc u = .out ∧ ∀ t, final.returned t = final.returned u := by
  obtain ⟨final, hrun, hstuck⟩ :
      ∃ final, run step (initBarrier (2 : Nat)) (twoCalls.take 6) = some final ∧
        ∀ t, final.pc t ≠ .out → step final (.go t) = none := by
    decide +kernel
  exact ⟨final, hrun, inc_barrier_waits_for_missing (by decide) hrun hstuck⟩

end Xv6.Fssp.Barrier
