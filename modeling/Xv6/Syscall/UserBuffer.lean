import Mathlib.Data.List.Range

/-! How system calls fetch their arguments from the user stack, `syscall.c`, and
where the calls that return data in a user buffer store it. Words are 32 bits,
`u32` marks the sums that wrap. -/
namespace Xv6.Syscall

def u32 (x : Nat) : Nat := x % 0x100000000

def sint (w : Nat) : Int :=
  if w < 0x80000000 then w else (w : Int) - 0x100000000

abbrev nofile : Nat := 16
abbrev ndev : Nat := 10
abbrev console : Int := 1
abbrev bsize : Nat := 512
abbrev maxfile : Nat := 140

inductive FileType where
  | dir
  | file
  | dev
deriving DecidableEq, Repr

/-- `short type` as it is stored. -/
def FileType.code : FileType → Nat
  | .dir => 1
  | .file => 2
  | .dev => 3

/-- A locked inode; `data` is what the blocks of the file hold, by offset. -/
structure Inode where
  dev : Nat
  inum : Nat
  type : FileType
  major : Int
  nlink : Nat
  size : Nat
  data : Nat → UInt8

/-- What `f->type` selects. A pipe is given by the bytes it holds when the
reader stops sleeping; `none` when it is killed there. -/
inductive Object where
  | none
  | pipe (queued : Option (List UInt8))
  | inode (ip : Inode) (off : Nat)

structure File where
  readable : Bool
  object : Object

/-- The calling process and the registers of its thread. -/
structure Caller where
  sz : Nat
  esp : Nat
  mem : Nat → UInt8
  ofile : Nat → Option File

abbrev Store := Nat × UInt8

/-- The stores of a call in order and its return value; `none` is a panic. -/
structure Effect where
  stores : List Store
  ret : Option Int

def refused : Effect := ⟨[], some (-1)⟩

section

def Caller.word (c : Caller) (addr : Nat) : Nat :=
  (c.mem addr).toNat + 0x100 * (c.mem (u32 (addr + 1))).toNat +
    0x10000 * (c.mem (u32 (addr + 2))).toNat + 0x1000000 * (c.mem (u32 (addr + 3))).toNat

def fetchint (c : Caller) (addr : Nat) : Option Nat :=
  if c.sz ≤ addr ∨ c.sz < u32 (addr + 4) then none else some (c.word addr)

def argint (c : Caller) (n : Nat) : Option Nat :=
  fetchint c (u32 (c.esp + 4 + 4 * n))

/-- `size` is an `int` in the source; the sum with `(uint)i` is unsigned. -/
def argptr (c : Caller) (n size : Nat) : Option Nat :=
  (argint c n).bind fun i => if c.sz ≤ i ∨ c.sz < u32 (i + size) then none else some i

def argfd (c : Caller) (n : Nat) : Option File :=
  (argint c n).bind fun fd =>
    if sint fd < 0 ∨ (nofile : Int) ≤ sint fd then none else c.ofile fd

end

def memmove : Nat → List UInt8 → List Store
  | _, [] => []
  | dst, byte :: rest => (u32 dst, byte) :: memmove (dst + 1) rest

def pipereadLoop (addr : Nat) (n : Int) : Nat → List UInt8 → List Store
  | _, [] => []
  | i, byte :: rest =>
    if (i : Int) < n then (u32 (addr + i), byte) :: pipereadLoop addr n (i + 1) rest else []

def piperead (queued : Option (List UInt8)) (addr n : Nat) : Effect :=
  match queued with
  | none => refused
  | some bytes =>
    let stores := pipereadLoop addr (sint n) 0 bytes
    ⟨stores, some stores.length⟩

/-- The loop of `consoleread` with `n` bytes left, over the keys typed until the
reader is killed. -/
def consolereadLoop (target : Int) : Nat → Int → List UInt8 → Effect
  | _, n, [] => ⟨[], some (if 0 < n then -1 else target - n)⟩
  | dst, n, c :: rest =>
    if n ≤ 0 then ⟨[], some (target - n)⟩
    else if c = 4 then ⟨[], some (target - n)⟩
    else if c = 10 then ⟨[(u32 dst, c)], some (target - (n - 1))⟩
    else
      let later := consolereadLoop target (dst + 1) (n - 1) rest
      ⟨(u32 dst, c) :: later.stores, later.ret⟩

def consoleread (keys : List UInt8) (dst n : Nat) : Effect :=
  consolereadLoop (sint n) dst (sint n) keys

/-- Only the console has a `read` function. -/
def devsw (major : Int) : Option (List UInt8 → Nat → Nat → Effect) :=
  if major = console then some consoleread else none

/-- The block loop of `readi` with `n` bytes left; `false` is the panic of
`bmap`. The fuel is the length. -/
def readiLoop (ip : Inode) : Nat → Nat → Nat → Nat → List Store × Bool
  | 0, _, _, _ => ([], true)
  | fuel + 1, dst, off, n =>
    if n = 0 then ([], true)
    else if maxfile ≤ off / bsize then ([], false)
    else
      let m := min n (bsize - off % bsize)
      let later := readiLoop ip fuel (u32 (dst + m)) (off + m) (n - m)
      (memmove dst ((List.range m).map fun k => ip.data (off + k)) ++ later.1, later.2)

def readi (keys : List UInt8) (ip : Inode) (dst off n : Nat) : Effect :=
  if ip.type = .dev then
    if ip.major < 0 ∨ (ndev : Int) ≤ ip.major then refused
    else match devsw ip.major with
      | none => refused
      | some read => read keys dst n
  else if ip.size < off ∨ u32 (off + n) < off then refused
  else
    let n := if ip.size < u32 (off + n) then ip.size - off else n
    let result := readiLoop ip n dst off n
    ⟨result.1, if result.2 then some (sint n) else none⟩

def fileread (keys : List UInt8) (f : File) (addr n : Nat) : Effect :=
  if f.readable = false then refused
  else match f.object with
    | .pipe queued => piperead queued addr n
    | .inode ip off => readi keys ip addr off n
    | .none => ⟨[], none⟩

def sysRead (keys : List UInt8) (c : Caller) : Effect :=
  match argfd c 0, argint c 2 with
  | some f, some n =>
    match argptr c 1 n with
    | none => refused
    | some p => fileread keys f p n
  | _, _ => refused

/-- The low `k` bytes of a number, lowest first. -/
def leBytes : Nat → Nat → List UInt8
  | 0, _ => []
  | k + 1, x => UInt8.ofNat x :: leBytes k (x / 0x100)

abbrev statSize : Nat := 20

def stati (ip : Inode) (st : Nat) : List Store :=
  memmove (st + 4) (leBytes 4 ip.dev) ++ memmove (st + 8) (leBytes 4 ip.inum) ++
    memmove st (leBytes 2 ip.type.code) ++ memmove (st + 12) (leBytes 2 ip.nlink) ++
    memmove (st + 16) (leBytes 4 ip.size)

def filestat (f : File) (st : Nat) : Effect :=
  match f.object with
  | .inode ip _ => ⟨stati ip st, some 0⟩
  | _ => refused

def sysFstat (c : Caller) : Effect :=
  match argfd c 0, argptr c 1 statSize with
  | some f, some st => filestat f st
  | _, _ => refused

/-- The lowest free descriptor from `fd` on. -/
def fdalloc (c : Caller) (fd : Nat) : Option Nat :=
  (List.range nofile).find? fun i => decide (fd ≤ i) && (c.ofile i).isNone

/-- `room` says whether `pipealloc` finds two files and a page. The second
`fdalloc` starts after the descriptor that the first one took. -/
def sysPipe (room : Bool) (c : Caller) : Effect :=
  match argptr c 0 8 with
  | none => refused
  | some fd =>
    if room = false then refused
    else match fdalloc c 0 with
      | none => refused
      | some fd0 =>
        match fdalloc c (fd0 + 1) with
        | none => refused
        | some fd1 => ⟨memmove fd (leBytes 4 fd0) ++ memmove (fd + 4) (leBytes 4 fd1), some 0⟩

/-- The calls that store in a buffer checked by `argptr`. -/
inductive Call where
  | read (keys : List UInt8)
  | fstat
  | pipe (room : Bool)

def Call.effect : Call → Caller → Effect
  | .read keys, c => sysRead keys c
  | .fstat, c => sysFstat c
  | .pipe room, c => sysPipe room c

/-- The position of the pointer among the arguments and the size it is checked
for. -/
def Call.buffer : Call → Caller → Option (Nat × Nat)
  | .read _, c => (argint c 2).map fun n => (1, n)
  | .fstat, _ => some (1, statSize)
  | .pipe _, _ => some (0, 8)

/-- How many bytes `readi` copies from a file or a directory. -/
def readiCount (ip : Inode) (off n : Nat) : Nat :=
  if ip.size < off ∨ 0x100000000 ≤ off + n then 0
  else min (min (ip.size - off) n) (maxfile * bsize - off)

/-- What `sys_read` copies from a file or a directory ends below `sz`. -/
def ReadFits (c : Caller) : Prop :=
  ∀ f n p ip off, argfd c 0 = some f → argint c 2 = some n → argptr c 1 n = some p →
    f.readable = true → f.object = .inode ip off → ip.type ≠ .dev →
      p + readiCount ip off n ≤ c.sz

theorem u32_of_lt {x : Nat} (h : x < 0x100000000) : u32 x = x :=
  Nat.mod_eq_of_lt h

theorem u32_add (x y : Nat) : u32 (u32 x + y) = u32 (x + y) :=
  Nat.mod_add_mod x _ y

variable {c : Caller}

theorem argptr_cases {n size p : Nat} (h : argptr c n size = some p) :
    argint c n = some p ∧ p < c.sz ∧ u32 (p + size) ≤ c.sz := by
  obtain ⟨i, hi, hcheck⟩ := Option.bind_eq_some_iff.mp h
  obtain ⟨hsz, hp⟩ := Option.ite_none_left_eq_some.mp hcheck
  cases hp
  exact ⟨hi, by omega, by omega⟩

theorem argint_lt {n i : Nat} (h : argint c n = some i) : i < 0x100000000 := by
  obtain ⟨_, hi⟩ := Option.ite_none_left_eq_some.mp h
  cases hi
  have hbyte := fun addr => (c.mem addr).toNat_lt
  have h0 := hbyte (u32 (c.esp + 4 + 4 * n))
  have h1 := hbyte (u32 (u32 (c.esp + 4 + 4 * n) + 1))
  have h2 := hbyte (u32 (u32 (c.esp + 4 + 4 * n) + 2))
  have h3 := hbyte (u32 (u32 (c.esp + 4 + 4 * n) + 3))
  unfold Caller.word
  omega

/-- The range that `argptr` accepts lies below `sz` exactly when the sum does not wrap. -/
theorem argptr_contained_iff {n size p : Nat} (hsz : c.sz ≤ 0x80000000)
    (h : argptr c n size = some p) : p + size ≤ c.sz ↔ p + size < 0x100000000 := by
  obtain ⟨_, _, hsum⟩ := argptr_cases h
  refine ⟨fun _ => by omega, fun hlt => ?_⟩
  rwa [u32_of_lt hlt] at hsum

/-- All stores go to the buffer of `size` bytes at `p`. -/
def Within (p size : Nat) (stores : List Store) : Prop :=
  ∀ store ∈ stores, ∃ k, k < size ∧ store.1 = u32 (p + k)

variable {keys : List UInt8}

section

variable {p size j : Nat}

theorem within_nil : Within p size [] := by
  intro store hstore
  cases hstore

theorem Within.mono {size' : Nat} {stores : List Store} (h : Within p size stores)
    (hle : size ≤ size') : Within p size' stores := by
  intro store hstore
  obtain ⟨k, hk, heq⟩ := h store hstore
  exact ⟨k, Nat.lt_of_lt_of_le hk hle, heq⟩

theorem Within.append {left right : List Store} (hl : Within p size left)
    (hr : Within p size right) : Within p size (left ++ right) := by
  intro store hstore
  rcases List.mem_append.mp hstore with h | h
  · exact hl store h
  · exact hr store h

theorem within_cons {byte : UInt8} {later : List Store} (hj : j < size)
    (hlater : Within p size later) : Within p size ((u32 (p + j), byte) :: later) := by
  intro store hstore
  rcases List.mem_cons.mp hstore with rfl | h
  · exact ⟨j, hj, rfl⟩
  · exact hlater store h

theorem Within.below {sz : Nat} {stores : List Store} (h : Within p size stores)
    (hend : p + size ≤ sz) (hsz : sz ≤ 0x80000000) : ∀ store ∈ stores, store.1 < sz := by
  intro store hstore
  obtain ⟨k, hk, heq⟩ := h store hstore
  rw [heq, u32_of_lt (by omega)]
  omega

theorem memmove_fst (dst : Nat) (bytes : List UInt8) :
    (memmove dst bytes).map Prod.fst = (List.range bytes.length).map fun k => u32 (dst + k) := by
  induction bytes generalizing dst with
  | nil => rfl
  | cons byte rest ih =>
    rw [memmove, List.map_cons, ih, List.length_cons, List.range_succ_eq_map, List.map_cons,
      List.map_map]
    simp only [Function.comp_def, Nat.succ_eq_add_one, Nat.add_assoc, Nat.add_comm 1,
      Nat.add_zero]

theorem within_of_fst {stores : List Store} {count : Nat}
    (h : stores.map Prod.fst = (List.range count).map fun k => u32 (p + k)) :
    Within p count stores := by
  intro store hstore
  have hmem : store.1 ∈ stores.map Prod.fst := List.mem_map_of_mem hstore
  rw [h] at hmem
  obtain ⟨k, hk, heq⟩ := List.mem_map.mp hmem
  exact ⟨k, List.mem_range.mp hk, heq.symm⟩

theorem within_memmove {bytes : List UInt8} (hend : j + bytes.length ≤ size) :
    Within p size (memmove (p + j) bytes) := by
  intro store hstore
  obtain ⟨k, hk, heq⟩ := within_of_fst (memmove_fst (p + j) bytes) store hstore
  exact ⟨j + k, by omega, by rw [heq, Nat.add_assoc]⟩

theorem length_leBytes (k x : Nat) : (leBytes k x).length = k := by
  induction k generalizing x with
  | zero => rfl
  | succ k ih => rw [leBytes, List.length_cons, ih]

theorem sint_toNat_le (n : Nat) : (sint n).toNat ≤ n := by
  unfold sint
  split <;> omega

theorem within_piperead {bytes : List UInt8} {i : Nat} {n : Int} :
    Within p n.toNat (pipereadLoop p n i bytes) := by
  induction bytes generalizing i with
  | nil => exact within_nil
  | cons byte rest ih =>
    unfold pipereadLoop
    split
    · exact within_cons (by omega) ih
    · exact within_nil

theorem within_consoleread {target n : Int} (hend : j + n.toNat ≤ size) :
    Within p size (consolereadLoop target (p + j) n keys).stores := by
  induction keys generalizing j n with
  | nil => exact within_nil
  | cons c rest ih =>
    unfold consolereadLoop
    split
    · exact within_nil
    · split
      · exact within_nil
      · split
        · exact within_cons (by omega) within_nil
        · exact within_cons (by omega) (ih (j := j + 1) (by omega))

/-- The block loop stores at consecutive addresses until the length is used up or the
largest file ends. -/
theorem readiLoop_fst {ip : Inode} {fuel dst off n : Nat} (hfuel : n ≤ fuel) :
    (readiLoop ip fuel dst off n).1.map Prod.fst =
      (List.range (min n (maxfile * bsize - off))).map fun k => u32 (dst + k) := by
  induction fuel generalizing dst off n with
  | zero => simp [readiLoop, Nat.le_zero.mp hfuel]
  | succ fuel ih =>
    unfold readiLoop
    split
    · simp [*]
    · rename_i hn
      split
      · rename_i hblock
        have hend : maxfile * bsize - off = 0 := by
          simp only [maxfile, bsize] at hblock ⊢
          omega
        simp [hend]
      · rename_i hblock
        have hmod := Nat.mod_lt off (show 0 < bsize by decide)
        have hm : 0 < min n (bsize - off % bsize) := by omega
        have hsplit : min n (maxfile * bsize - off) = min n (bsize - off % bsize) +
            min (n - min n (bsize - off % bsize))
              (maxfile * bsize - (off + min n (bsize - off % bsize))) := by
          simp only [maxfile, bsize] at hblock ⊢
          omega
        rw [List.map_append, ih (by omega), memmove_fst, List.length_map, List.length_range,
          hsplit, List.range_add, List.map_append, List.map_map]
        simp only [Function.comp_def, u32_add, Nat.add_assoc]

theorem readi_fst {ip : Inode} {off n : Nat} (hdev : ip.type ≠ .dev) (hn : n < 0x100000000) :
    (readi keys ip p off n).stores.map Prod.fst =
      (List.range (readiCount ip off n)).map fun k => u32 (p + k) := by
  have hword : u32 (off + n) = off + n ∧ off + n < 0x100000000 ∨
      u32 (off + n) < off ∧ 0x100000000 ≤ off + n := by
    unfold u32
    omega
  unfold readi readiCount
  rw [if_neg hdev]
  split
  · rw [if_pos (by omega)]
    rfl
  · rw [if_neg (show ¬(ip.size < off ∨ 0x100000000 ≤ off + n) by omega)]
    have hcount : (if ip.size < u32 (off + n) then ip.size - off else n) =
        min (ip.size - off) n := by
      split <;> omega
    simp only [hcount]
    exact readiLoop_fst le_rfl

theorem within_readi {ip : Inode} {off n : Nat} (hdev : ip.type = .dev) :
    Within p (sint n).toNat (readi keys ip p off n).stores := by
  unfold readi devsw
  rw [if_pos hdev]
  split
  · exact within_nil
  · split
    · exact within_nil
    · rename_i read hread
      obtain ⟨_, hread⟩ := Option.ite_none_right_eq_some.mp hread
      cases hread
      exact within_consoleread (j := 0) (Nat.zero_add _).le

theorem readiCount_le (ip : Inode) (off n : Nat) : readiCount ip off n ≤ n := by
  unfold readiCount
  split <;> omega

theorem within_stati {ip : Inode} : Within p statSize (stati ip p) := by
  unfold stati
  refine Within.append (Within.append (Within.append (Within.append ?_ ?_) ?_) ?_) ?_
  · exact within_memmove (by simp [length_leBytes, statSize])
  · exact within_memmove (by simp [length_leBytes, statSize])
  · exact within_memmove (j := 0) (by simp [length_leBytes, statSize])
  · exact within_memmove (by simp [length_leBytes, statSize])
  · exact within_memmove (by simp [length_leBytes, statSize])

end

/-- The stores of `fileread` lie in a buffer of `n` bytes, and for a pipe or a device in one
of as many bytes as the signed length says. -/
theorem within_fileread (keys : List UInt8) (f : File) (p : Nat) {n : Nat} (hn : n < 0x100000000) :
    (∃ ip off, f.readable = true ∧ f.object = .inode ip off ∧ ip.type ≠ .dev ∧
        (fileread keys f p n).stores.map Prod.fst =
          (List.range (readiCount ip off n)).map fun k => u32 (p + k)) ∨
      (∀ ip off, f.readable = true → f.object = .inode ip off → ip.type = .dev) ∧
        Within p (sint n).toNat (fileread keys f p n).stores := by
  unfold fileread
  split
  · rename_i hreadable
    refine Or.inr ⟨fun _ _ htrue => ?_, within_nil⟩
    rw [htrue] at hreadable
    cases hreadable
  · rename_i hreadable
    cases hobject : f.object with
    | none => exact Or.inr ⟨nofun, within_nil⟩
    | pipe queued =>
      refine Or.inr ⟨nofun, ?_⟩
      simp only [piperead]
      split
      · exact within_nil
      · exact within_piperead
    | inode ip off =>
      by_cases hdev : ip.type = .dev
      · refine Or.inr ⟨fun _ _ _ hip => ?_, within_readi hdev⟩
        cases hip
        exact hdev
      · exact Or.inl ⟨ip, off, by simpa using hreadable, rfl, hdev, readi_fst hdev hn⟩

theorem sysRead_accepted {f : File} {n p : Nat} (hf : argfd c 0 = some f) (hn : argint c 2 = some n)
    (hp : argptr c 1 n = some p) : sysRead keys c = fileread keys f p n := by
  simp only [sysRead, hf, hn, hp]

/-- A call that stores something has passed `argptr`, and stores in the accepted buffer. -/
theorem within_effect {call : Call} {store : Store} (hstore : store ∈ (call.effect c).stores) :
    ∃ n size p, call.buffer c = some (n, size) ∧ argptr c n size = some p ∧
      Within p size (call.effect c).stores := by
  cases call with
  | read keys =>
    simp only [Call.effect, Call.buffer] at hstore ⊢
    cases hf : argfd c 0 with
    | none => simp [sysRead, hf, refused] at hstore
    | some f =>
      cases hn : argint c 2 with
      | none => simp [sysRead, hf, hn, refused] at hstore
      | some n =>
        cases hp : argptr c 1 n with
        | none => simp [sysRead, hf, hn, hp, refused] at hstore
        | some p =>
          rw [sysRead_accepted hf hn hp]
          refine ⟨1, n, p, rfl, hp, ?_⟩
          rcases within_fileread keys f p (argint_lt hn) with
            ⟨ip, off, _, _, _, hfst⟩ | ⟨_, hwithin⟩
          · exact (within_of_fst hfst).mono (readiCount_le ip off n)
          · exact hwithin.mono (sint_toNat_le n)
  | fstat =>
    simp only [Call.effect, sysFstat] at hstore ⊢
    split at hstore
    · rename_i f st _ hst
      refine ⟨1, statSize, st, rfl, hst, ?_⟩
      unfold filestat
      split
      · exact within_stati
      · exact within_nil
    · cases hstore
  | pipe room =>
    simp only [Call.effect, sysPipe] at hstore ⊢
    cases hp : argptr c 0 8 with
    | none => simp [hp, refused] at hstore
    | some p =>
      refine ⟨0, 8, p, rfl, hp, ?_⟩
      simp only
      split
      · exact within_nil
      · split
        · exact within_nil
        · split
          · exact within_nil
          · refine Within.append ?_ ?_
            · exact within_memmove (j := 0) (by simp [length_leBytes])
            · exact within_memmove (by simp [length_leBytes])

theorem small_buffer_below (call : Call) (hsz : c.sz ≤ 0x80000000)
    (hsmall : ∀ n size, call.buffer c = some (n, size) → size < 0x80000000) :
    ∀ store ∈ (call.effect c).stores, store.1 < c.sz := by
  intro store hstore
  obtain ⟨n, size, p, hbuffer, hp, hwithin⟩ := within_effect hstore
  have hlt := (argptr_cases hp).2.1
  have hsize := hsmall n size hbuffer
  exact hwithin.below ((argptr_contained_iff hsz hp).mpr (by omega)) hsz store hstore

theorem sysRead_below_iff (hsz : c.sz ≤ 0x80000000) :
    (∀ store ∈ (sysRead keys c).stores, store.1 < c.sz) ↔ ReadFits c := by
  constructor
  · intro hbelow f n p ip off hf hn hp hreadable hobject hdev
    rw [sysRead_accepted hf hn hp] at hbelow
    have hlt := (argptr_cases hp).2.1
    by_contra hover
    -- the last byte of the copy
    have hcap : readiCount ip off n ≤ maxfile * bsize := by
      unfold readiCount
      split <;> omega
    have hcap' : maxfile * bsize = 71680 := rfl
    have hstores : (fileread keys f p n).stores.map Prod.fst =
        (List.range (readiCount ip off n)).map fun k => u32 (p + k) := by
      simp only [fileread, hreadable, hobject, Bool.true_eq_false, if_false]
      exact readi_fst hdev (argint_lt hn)
    have hmem : u32 (p + (c.sz - p)) ∈ (fileread keys f p n).stores.map Prod.fst := by
      rw [hstores]
      exact List.mem_map.mpr ⟨c.sz - p, List.mem_range.mpr (by omega), rfl⟩
    obtain ⟨store, hstore, heq⟩ := List.mem_map.mp hmem
    have hstore := hbelow store hstore
    rw [heq, u32_of_lt (by omega)] at hstore
    omega
  · intro hfits store hstore
    cases hf : argfd c 0 with
    | none => simp [sysRead, hf, refused] at hstore
    | some f =>
      cases hn : argint c 2 with
      | none => simp [sysRead, hf, hn, refused] at hstore
      | some n =>
        cases hp : argptr c 1 n with
        | none => simp [sysRead, hf, hn, hp, refused] at hstore
        | some p =>
          rw [sysRead_accepted hf hn hp] at hstore
          rcases within_fileread keys f p (argint_lt hn) with
            ⟨ip, off, hreadable, hobject, hdev, hfst⟩ | ⟨_, hwithin⟩
          · exact (within_of_fst hfst).below
              (hfits f n p ip off hf hn hp hreadable hobject hdev) hsz store hstore
          · refine hwithin.below ?_ hsz store hstore
            obtain ⟨_, hlt, hsum⟩ := argptr_cases hp
            unfold sint
            split
            · rw [u32_of_lt (by omega)] at hsum
              omega
            · have hn := argint_lt hn
              omega

/-- What `argptr` accepts lies below `sz` exactly when the sum of address and length does
not wrap. The stores of `fstat` and `pipe` lie below `sz`, and those of `read` exactly when
what it copies from a file or a directory fits. -/
theorem user_buffers_contained (c : Caller) (hsz : c.sz ≤ 0x80000000) :
    (∀ n size p, argptr c n size = some p → (p + size ≤ c.sz ↔ p + size < 0x100000000)) ∧
      (∀ store ∈ (sysFstat c).stores, store.1 < c.sz) ∧
      (∀ room, ∀ store ∈ (sysPipe room c).stores, store.1 < c.sz) ∧
      ∀ keys, (∀ store ∈ (sysRead keys c).stores, store.1 < c.sz) ↔ ReadFits c := by
  refine ⟨fun n size p => argptr_contained_iff hsz, ?_, fun room => ?_,
    fun keys => sysRead_below_iff hsz⟩
  · refine small_buffer_below .fstat hsz fun n size hbuffer => ?_
    cases hbuffer
    decide
  · refine small_buffer_below (.pipe room) hsz fun n size hbuffer => ?_
    cases hbuffer
    decide

/-- A process of one page that reads `n` bytes to `p` from a file of two bytes. -/
def reader (p n : Nat) : Caller where
  sz := 4096
  esp := 0
  mem := fun a =>
    if a < 8 then 0 else ((leBytes 4 p ++ leBytes 4 n)[a - 8]?).getD 0
  ofile := fun _ => some ⟨true, .inode ⟨1, 2, .file, 0, 1, 2, fun _ => 65⟩ 0⟩

/-- The sum wraps for `read(fd, 1, -1)`, and the two bytes of the file fit. -/
theorem user_buffers_contained_read :
    ((Call.read []).effect (reader 1 0xffffffff)).stores = [(1, 65), (2, 65)] ∧
      ReadFits (reader 1 0xffffffff) ∧ ReadFits (reader 4094 2) := by
  refine ⟨by decide +kernel, ?_, ?_⟩
  · exact ((user_buffers_contained (reader 1 0xffffffff) (by decide)).2.2.2 []).mp
      (by decide +kernel)
  · exact ((user_buffers_contained (reader 4094 2) (by decide)).2.2.2 []).mp (by decide +kernel)

/-- `read(fd, p, -1)` for the last byte of the process stores behind it. -/
theorem negative_length_escapes : argptr (reader 4095 0xffffffff) 1 0xffffffff = some 4095 ∧
      (4096, 65) ∈ ((Call.read []).effect (reader 4095 0xffffffff)).stores := by
  decide +kernel

end Xv6.Syscall
