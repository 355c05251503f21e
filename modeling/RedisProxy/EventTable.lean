import RedisProxy.Library.Runs
import Mathlib.Data.List.Basic
import Mathlib.Logic.Function.Basic
import Mathlib.Order.Lattice

/-!
# The event table

`ae.c` keeps an array of file events, indexed by descriptor, and tells the kernel
which of them to watch; `ae_epoll.c` does so with one `epoll` instance. The two
records are separate: the array says what is to be called and the kernel what is
to be reported, and `epoll_ctl` has to be told whether it adds a descriptor, changes it
or takes it out, which `aeApiAddEvent` concludes from the array.

Every operation keeps the table well formed (`AeEventLoop.WellFormed`), whatever becomes of
the descriptors meanwhile: `maxfd` is the highest descriptor registered, no callback is
registered that has not been written, and the kernel watches nothing that the array
does not have. It may watch less, as a descriptor that is closed is taken out of the
kernel's record behind the array's back; the two are in step (`AeEventLoop.InSync`) if it
does not.

Descriptors and masks are `int`s, masks used as sets of bits. What has been allocated
and not written is `none` or arbitrary, and an access outside of the array has no
result.
-/

namespace Ae

/-! ## Masks -/

/-- A mask of events. -/
abbrev Mask : Type := BitVec 32

/-- `AE_NONE`. -/
def aeNone : Mask := 0

/-- `AE_READABLE`. -/
def aeReadable : Mask := 1

/-- `AE_WRITABLE`. -/
def aeWritable : Mask := 2

theorem aeReadable_ne_aeNone : aeReadable ≠ aeNone := by decide

/-- `mask & event`, as a condition. -/
def Mask.has (mask event : Mask) : Bool := mask &&& event ≠ 0

namespace Mask

variable {a b event : Mask}

theorem has_iff : has a event = true ↔ a &&& event ≠ aeNone := decide_eq_true_iff

@[simp]
theorem has_aeNone : has aeNone event = false := decide_eq_false (not_not.mpr BitVec.zero_and)

theorem or_eq_aeNone : a ||| b = aeNone ↔ a = aeNone ∧ b = aeNone := BitVec.or_eq_zero_iff

theorem or_ne_aeNone (h : b ≠ aeNone) : a ||| b ≠ aeNone := fun hor => h (or_eq_aeNone.mp hor).2

theorem ne_aeNone_of_and (h : a &&& b ≠ aeNone) : a ≠ aeNone := by
  rintro rfl
  exact h BitVec.zero_and

/-- A union has what one of the two has. -/
theorem has_or : has (a ||| b) event = (has a event || has b event) := by
  rw [Bool.eq_iff_iff, Bool.or_eq_true, has_iff, has_iff, has_iff, BitVec.and_comm,
    BitVec.and_or_distrib_left, BitVec.and_comm event a, BitVec.and_comm event b]
  exact (not_congr or_eq_aeNone).trans not_and_or

/-- What an intersection has, both have. -/
theorem has_of_and (h : has (a &&& b) event = true) : has a event = true := by
  rw [has_iff] at h ⊢
  rw [BitVec.and_assoc, BitVec.and_comm b event, ← BitVec.and_assoc] at h
  exact ne_aeNone_of_and h

end Mask

/-! ## The kernel -/

/-- What the kernel is to report of a descriptor: `EPOLLIN`, `EPOLLOUT`. -/
structure EpollEvent where
  epollin : Bool
  epollout : Bool
  deriving DecidableEq

/-- The events a mask asks for. -/
def EpollEvent.ofMask (mask : Mask) : EpollEvent where
  epollin := Mask.has mask aeReadable
  epollout := Mask.has mask aeWritable

/-- **The kernel**: which descriptors are open, and what the `epoll` instance
watches. -/
structure Epoll where
  /-- Whether a descriptor is open. -/
  isOpen : ℤ → Bool
  /-- What is to be reported of it. -/
  interest : ℤ → Option EpollEvent

/-- `EPOLL_CTL_ADD`, `EPOLL_CTL_MOD` and `EPOLL_CTL_DEL`. -/
inductive EpollOp where
  | add
  | mod
  | del
  deriving DecidableEq

namespace Epoll

/-- `epoll_ctl`; `none` is `-1`. A descriptor that is not open cannot be watched; one
that is watched cannot be added, and one that is not can neither be changed nor taken
out. The kernel may have reasons of its own to refuse an addition. -/
def epollCtl (k : Epoll) (op : EpollOp) (fd : ℤ) (ee : EpollEvent) (refused : Bool) :
    Option Epoll :=
  if k.isOpen fd = false then none
  else
    match op, k.interest fd with
    | .add, none =>
      if refused then none else some { k with interest := Function.update k.interest fd (some ee) }
    | .mod, some _ => some { k with interest := Function.update k.interest fd (some ee) }
    | .del, some _ => some { k with interest := Function.update k.interest fd none }
    | _, _ => none

/-- A descriptor is handed out. -/
def opened (k : Epoll) (fd : ℤ) : Epoll := { k with isOpen := Function.update k.isOpen fd true }

/-- A descriptor is closed, and no longer watched. -/
def closed (k : Epoll) (fd : ℤ) : Epoll where
  isOpen := Function.update k.isOpen fd false
  interest := Function.update k.interest fd none

end Epoll

/-! ## The event loop -/

/-- `aeFileEvent`; what has not been written is `none`. -/
structure AeFileEvent (Proc Data : Type) where
  /-- `mask`. -/
  mask : Mask
  /-- `rfileProc`. -/
  rfileProc : Option Proc
  /-- `wfileProc`. -/
  wfileProc : Option Proc
  /-- `clientData`. -/
  clientData : Option Data

/-- `AE_OK` and `AE_ERR`. -/
inductive AeStatus where
  | ok
  | err
  deriving DecidableEq

/-- `aeEventLoop`, as far as it is about files, with the `epoll` instance behind
`apidata`. -/
structure AeEventLoop (Proc Data : Type) where
  /-- `maxfd`: the highest descriptor registered. -/
  maxfd : ℤ
  /-- `setsize`. -/
  setsize : ℤ
  /-- `events`. -/
  events : List (AeFileEvent Proc Data)
  /-- The kernel. -/
  kernel : Epoll

variable {Proc Data : Type}

namespace AeFileEvent

/-- The masks as `aeCreateEventLoop` and `aeResizeSetSize` set them. -/
def clear (fe : AeFileEvent Proc Data) : AeFileEvent Proc Data := { fe with mask := aeNone }

/-- What `aeCreateFileEvent` writes. -/
def register (fe : AeFileEvent Proc Data) (mask : Mask) (proc : Proc) (clientData : Data) :
    AeFileEvent Proc Data where
  mask := fe.mask ||| mask
  rfileProc := if Mask.has mask aeReadable then some proc else fe.rfileProc
  wfileProc := if Mask.has mask aeWritable then some proc else fe.wfileProc
  clientData := some clientData

/-- What `aeDeleteFileEvent` writes. -/
def unregister (fe : AeFileEvent Proc Data) (mask : Mask) : AeFileEvent Proc Data :=
  { fe with mask := fe.mask &&& ~~~mask }

/-- **The callbacks that may be called have been written.** -/
structure Written (fe : AeFileEvent Proc Data) : Prop where
  reader : Mask.has fe.mask aeReadable → fe.rfileProc.isSome
  writer : Mask.has fe.mask aeWritable → fe.wfileProc.isSome
  data : fe.mask ≠ aeNone → fe.clientData.isSome

variable {fe : AeFileEvent Proc Data} {mask : Mask}

theorem written_clear (fe : AeFileEvent Proc Data) : fe.clear.Written where
  reader h := absurd (Mask.has_aeNone.symm.trans h) Bool.false_ne_true
  writer h := absurd (Mask.has_aeNone.symm.trans h) Bool.false_ne_true
  data h := absurd rfl h

theorem Written.register (h : fe.Written) (mask : Mask) (proc : Proc) (clientData : Data) :
    (fe.register mask proc clientData).Written where
  reader hread := by
    show (if Mask.has mask aeReadable then some proc else fe.rfileProc).isSome
    split
    · rfl
    · rename_i hnew
      change Mask.has (fe.mask ||| mask) aeReadable = true at hread
      rw [Mask.has_or, Bool.or_eq_true] at hread
      exact h.reader (hread.resolve_right hnew)
  writer hwrite := by
    show (if Mask.has mask aeWritable then some proc else fe.wfileProc).isSome
    split
    · rfl
    · rename_i hnew
      change Mask.has (fe.mask ||| mask) aeWritable = true at hwrite
      rw [Mask.has_or, Bool.or_eq_true] at hwrite
      exact h.writer (hwrite.resolve_right hnew)
  data _ := rfl

theorem Written.unregister (h : fe.Written) (mask : Mask) : (fe.unregister mask).Written where
  reader hread := h.reader (Mask.has_of_and hread)
  writer hwrite := h.writer (Mask.has_of_and hwrite)
  data hmask := h.data (Mask.ne_aeNone_of_and hmask)

end AeFileEvent

/-- `aeApiAddEvent`, for a descriptor with the mask `old`. -/
def aeApiAddEvent (k : Epoll) (old : Mask) (fd : ℤ) (mask : Mask) (refused : Bool) :
    Option Epoll :=
  k.epollCtl (if old = aeNone then .add else .mod) fd (.ofMask (mask ||| old)) refused

/-- `aeApiDelEvent`, for a descriptor with the mask `old`. What `epoll_ctl` returns is not
looked at. -/
def aeApiDelEvent (k : Epoll) (old : Mask) (fd : ℤ) (delmask : Mask) : Epoll :=
  let mask := old &&& ~~~delmask
  (k.epollCtl (if mask ≠ aeNone then .mod else .del) fd (.ofMask mask) false).getD k

namespace AeEventLoop

/-- `aeCreateEventLoop`, with what the memory of the array holds, and a new `epoll`
instance. -/
def aeCreateEventLoop (setsize : ℕ) (memory : ℕ → AeFileEvent Proc Data) (isOpen : ℤ → Bool) :
    AeEventLoop Proc Data where
  maxfd := -1
  setsize := setsize
  events := (List.range setsize).map fun i => (memory i).clear
  kernel := ⟨isOpen, fun _ => none⟩

/-- `events[fd]`; there is none outside of the array. -/
def fileEvent (loop : AeEventLoop Proc Data) (fd : ℤ) : Option (AeFileEvent Proc Data) :=
  if fd < 0 then none else loop.events[fd.toNat]?

/-- `events[fd]` has been written. -/
def setFileEvent (loop : AeEventLoop Proc Data) (fd : ℤ) (fe : AeFileEvent Proc Data) :
    AeEventLoop Proc Data :=
  { loop with events := loop.events.set fd.toNat fe }

/-- `aeCreateFileEvent`. -/
def aeCreateFileEvent (loop : AeEventLoop Proc Data) (fd : ℤ) (mask : Mask) (proc : Proc)
    (clientData : Data) (refused : Bool) : Option (AeEventLoop Proc Data × AeStatus) :=
  if fd ≥ loop.setsize then some (loop, .err)
  else do
    let fe ← loop.fileEvent fd
    match aeApiAddEvent loop.kernel fe.mask fd mask refused with
    | none => some (loop, .err)
    | some k =>
      let loop := { loop with kernel := k }.setFileEvent fd (fe.register mask proc clientData)
      some (if fd > loop.maxfd then { loop with maxfd := fd } else loop, .ok)

/-- The loop of `aeDeleteFileEvent` that looks for the highest descriptor below `j`. -/
def searchMaxfd (events : List (AeFileEvent Proc Data)) : ℕ → ℤ
  | 0 => -1
  | j + 1 => if (events[j]?.map AeFileEvent.mask).getD aeNone ≠ aeNone then j
    else searchMaxfd events j

/-- `aeDeleteFileEvent`. -/
def aeDeleteFileEvent (loop : AeEventLoop Proc Data) (fd : ℤ) (mask : Mask) :
    Option (AeEventLoop Proc Data) :=
  if fd ≥ loop.setsize then some loop
  else do
    let fe ← loop.fileEvent fd
    if fe.mask = aeNone then some loop
    else
      let loop := { loop with kernel := aeApiDelEvent loop.kernel fe.mask fd mask }.setFileEvent fd
        (fe.unregister mask)
      if fd = loop.maxfd ∧ (fe.unregister mask).mask = aeNone then
        some { loop with maxfd := searchMaxfd loop.events loop.maxfd.toNat }
      else some loop

/-- `aeGetFileEvents`. -/
def aeGetFileEvents (loop : AeEventLoop Proc Data) (fd : ℤ) : Option Mask :=
  if fd ≥ loop.setsize then some aeNone else (loop.fileEvent fd).map AeFileEvent.mask

/-- `aeResizeSetSize`, with what new memory holds. -/
def aeResizeSetSize (loop : AeEventLoop Proc Data) (setsize : ℤ)
    (memory : ℕ → AeFileEvent Proc Data) : AeEventLoop Proc Data × AeStatus :=
  if setsize = loop.setsize then (loop, .ok)
  else if loop.maxfd ≥ setsize then (loop, .err)
  else
    let events := (List.range setsize.toNat).map fun i => (loop.events[i]?).getD (memory i)
    ({ loop with
        setsize := setsize
        events := events.mapIdx fun i fe => if loop.maxfd + 1 ≤ i then fe.clear else fe }, .ok)

/-! ## What the array holds -/

variable {loop loop' : AeEventLoop Proc Data} {fd fd' : ℤ} {fe : AeFileEvent Proc Data}

/-- The mask of a descriptor, `AE_NONE` outside of the array. -/
def maskOf (loop : AeEventLoop Proc Data) (fd : ℤ) : Mask :=
  ((loop.fileEvent fd).map AeFileEvent.mask).getD aeNone

theorem maskOf_of_fileEvent (h : loop.fileEvent fd = some fe) : loop.maskOf fd = fe.mask := by
  unfold maskOf
  rw [h]
  rfl

theorem fileEvent_eq_some (h : loop.fileEvent fd = some fe) :
    0 ≤ fd ∧ loop.events[fd.toNat]? = some fe := by
  unfold fileEvent at h
  split at h
  · cases h
  · exact ⟨by omega, h⟩

/-- There is an event inside of the array. -/
theorem exists_fileEvent (hlen : (loop.events.length : ℤ) = loop.setsize) (hfd : 0 ≤ fd)
    (hlt : fd < loop.setsize) : ∃ fe, loop.fileEvent fd = some fe := by
  have hidx : fd.toNat < loop.events.length := by omega
  refine ⟨loop.events[fd.toNat], ?_⟩
  unfold fileEvent
  rw [if_neg (by omega), List.getElem?_eq_getElem hidx]

/-- `aeGetFileEvents` returns the mask. -/
theorem aeGetFileEvents_eq (hlen : (loop.events.length : ℤ) = loop.setsize) (hfd : 0 ≤ fd) :
    loop.aeGetFileEvents fd = some (loop.maskOf fd) := by
  unfold aeGetFileEvents
  split
  · rename_i hsize
    have hnone : loop.fileEvent fd = none := by
      unfold fileEvent
      rw [if_neg (by omega), List.getElem?_eq_none (by omega)]
    unfold maskOf
    rw [hnone]
    rfl
  · rename_i hsize
    obtain ⟨fe, hfe⟩ := exists_fileEvent hlen hfd (by omega)
    rw [hfe, maskOf_of_fileEvent hfe]
    rfl

/-- What has a mask is inside of the array. -/
theorem bounds_of_maskOf (hlen : (loop.events.length : ℤ) = loop.setsize)
    (h : loop.maskOf fd ≠ aeNone) :
    0 ≤ fd ∧ fd < loop.setsize ∧ ∃ fe, loop.fileEvent fd = some fe ∧ fe.mask = loop.maskOf fd := by
  cases hfe : loop.fileEvent fd with
  | none =>
    unfold maskOf at h
    rw [hfe] at h
    exact absurd rfl h
  | some fe =>
    obtain ⟨hfd, hget⟩ := fileEvent_eq_some hfe
    have hidx := (List.getElem?_eq_some_iff.mp hget).1
    exact ⟨hfd, by omega, fe, rfl, (maskOf_of_fileEvent hfe).symm⟩

/-- One event of the array and of the kernel's record have been written. -/
def write (loop : AeEventLoop Proc Data) (fd : ℤ) (fe : AeFileEvent Proc Data)
    (interest : Option EpollEvent) (maxfd : ℤ) : AeEventLoop Proc Data where
  maxfd := maxfd
  setsize := loop.setsize
  events := loop.events.set fd.toNat fe
  kernel := ⟨loop.kernel.isOpen, Function.update loop.kernel.interest fd interest⟩

/-- **Writing one event** leaves the others. -/
theorem fileEvent_write (h : loop.fileEvent fd = some fe) (fe' : AeFileEvent Proc Data)
    (interest : Option EpollEvent) (maxfd : ℤ) (fd' : ℤ) :
    (loop.write fd fe' interest maxfd).fileEvent fd'
      = if fd' = fd then some fe' else loop.fileEvent fd' := by
  obtain ⟨hfd, hget⟩ := fileEvent_eq_some h
  have hidx := (List.getElem?_eq_some_iff.mp hget).1
  unfold fileEvent write
  dsimp only
  rw [List.getElem?_set]
  by_cases hfd' : fd' = fd
  · subst hfd'
    rw [if_neg (by omega), if_pos rfl, if_pos hidx, if_pos rfl]
  · rw [if_neg hfd']
    split
    · rfl
    · rw [if_neg (by omega)]

theorem maskOf_write (h : loop.fileEvent fd = some fe) (fe' : AeFileEvent Proc Data)
    (interest : Option EpollEvent) (maxfd : ℤ) (fd' : ℤ) :
    (loop.write fd fe' interest maxfd).maskOf fd'
      = if fd' = fd then fe'.mask else loop.maskOf fd' := by
  unfold maskOf
  rw [fileEvent_write h]
  split <;> rfl

/-! ## The highest descriptor -/

/-- **The highest descriptor with a mask**, `-1` if there is none. -/
structure IsMaxfd (maskOf : ℤ → Mask) (maxfd : ℤ) : Prop where
  least : -1 ≤ maxfd
  above : ∀ fd, maskOf fd ≠ aeNone → fd ≤ maxfd
  top : maxfd ≠ -1 → maskOf maxfd ≠ aeNone

/-- **What the search finds.** -/
theorem searchMaxfd_spec (events : List (AeFileEvent Proc Data)) (n : ℕ) :
    -1 ≤ searchMaxfd events n ∧ searchMaxfd events n < n
      ∧ (∀ j : ℕ, searchMaxfd events n < j → j < n →
        (events[j]?.map AeFileEvent.mask).getD aeNone = aeNone)
      ∧ (searchMaxfd events n ≠ -1 → ((events[(searchMaxfd events n).toNat]?).map
        AeFileEvent.mask).getD aeNone ≠ aeNone) := by
  induction n with
  | zero =>
    exact ⟨le_refl _, Int.negSucc_lt_zero 0, fun j _ hj => absurd hj (Nat.not_lt_zero j),
      fun h => absurd rfl h⟩
  | succ n ih =>
    rw [searchMaxfd]
    split
    · rename_i hmask
      refine ⟨by omega, by omega, fun j hj hlt => by omega, fun _ => ?_⟩
      rwa [Int.toNat_natCast]
    · rename_i hmask
      obtain ⟨hge, hlt, hnone, htop⟩ := ih
      refine ⟨hge, by omega, fun j hj hjn => ?_, htop⟩
      rcases Nat.lt_succ_iff_lt_or_eq.mp hjn with hjn | rfl
      · exact hnone j hj hjn
      · exact not_not.mp hmask

theorem maskOf_natCast (loop : AeEventLoop Proc Data) (j : ℕ) :
    loop.maskOf j = (loop.events[j]?.map AeFileEvent.mask).getD aeNone := by
  unfold maskOf fileEvent
  rw [if_neg (by omega), Int.toNat_natCast]

/-- **The search finds the highest descriptor** if it starts above all. -/
theorem isMaxfd_searchMaxfd (hlen : (loop.events.length : ℤ) = loop.setsize) {n : ℕ}
    (habove : ∀ fd, loop.maskOf fd ≠ aeNone → fd < n) :
    IsMaxfd loop.maskOf (searchMaxfd loop.events n) := by
  obtain ⟨hge, -, hnone, htop⟩ := searchMaxfd_spec loop.events n
  refine ⟨hge, fun fd hmask => ?_, fun hne => ?_⟩
  · by_contra hgt
    obtain ⟨hfd, -⟩ := bounds_of_maskOf hlen hmask
    obtain ⟨j, rfl⟩ := Int.eq_ofNat_of_zero_le hfd
    refine hmask ?_
    rw [maskOf_natCast]
    exact hnone j (not_le.mp hgt) (Int.ofNat_lt.mp (habove _ hmask))
  · obtain ⟨j, hj⟩ := Int.eq_ofNat_of_zero_le (show 0 ≤ searchMaxfd loop.events n by omega)
    have hmask := htop hne
    rw [hj, Int.toNat_natCast] at hmask
    rw [hj, maskOf_natCast]
    exact hmask

/-- Masks go, and that of the highest descriptor stays. -/
theorem IsMaxfd.keep {maskOf maskOf' : ℤ → Mask} {maxfd : ℤ} (h : IsMaxfd maskOf maxfd)
    (hsub : ∀ fd, maskOf' fd ≠ aeNone → maskOf fd ≠ aeNone)
    (htop : maskOf maxfd ≠ aeNone → maskOf' maxfd ≠ aeNone) : IsMaxfd maskOf' maxfd where
  least := h.least
  above fd hfd := h.above fd (hsub fd hfd)
  top hne := htop (h.top hne)

/-- A descriptor gets a mask. -/
theorem IsMaxfd.register {maskOf maskOf' : ℤ → Mask} {maxfd : ℤ} (h : IsMaxfd maskOf maxfd)
    (hfd : 0 ≤ fd) (hmask : maskOf' fd ≠ aeNone) (hother : ∀ fd' ≠ fd, maskOf' fd' = maskOf fd') :
    IsMaxfd maskOf' (if fd > maxfd then fd else maxfd) := by
  obtain ⟨hleast, habove, htop⟩ := h
  have hle : ∀ fd', maskOf' fd' ≠ aeNone → fd' = fd ∨ fd' ≤ maxfd := fun fd' h' => by
    by_cases heq : fd' = fd
    · exact Or.inl heq
    · exact Or.inr (habove fd' (hother fd' heq ▸ h'))
  split
  · refine ⟨by omega, fun fd' h' => ?_, fun _ => hmask⟩
    rcases hle fd' h' with heq | hle'
    · exact heq.le
    · omega
  · refine ⟨hleast, fun fd' h' => ?_, fun h' => ?_⟩
    · rcases hle fd' h' with heq | hle'
      · omega
      · exact hle'
    · by_cases heq : maxfd = fd
      · exact heq ▸ hmask
      · exact hother maxfd heq ▸ htop h'

/-! ## The invariant -/

/-- The events of a new event loop are cleared. -/
theorem fileEvent_aeCreateEventLoop (setsize : ℕ) (memory : ℕ → AeFileEvent Proc Data)
    (isOpen : ℤ → Bool)
    (hfe : (aeCreateEventLoop setsize memory isOpen).fileEvent fd = some fe) :
    ∃ fe', fe = AeFileEvent.clear fe' := by
  obtain ⟨i, -, rfl⟩ := List.mem_map.mp (List.mem_of_getElem? (fileEvent_eq_some hfe).2)
  exact ⟨memory i, rfl⟩

theorem maskOf_aeCreateEventLoop (setsize : ℕ) (memory : ℕ → AeFileEvent Proc Data)
    (isOpen : ℤ → Bool) (fd : ℤ) :
    (aeCreateEventLoop setsize memory isOpen).maskOf fd = aeNone := by
  cases hfe : (aeCreateEventLoop setsize memory isOpen).fileEvent fd with
  | none =>
    unfold maskOf
    rw [hfe]
    rfl
  | some fe =>
    obtain ⟨fe', rfl⟩ := fileEvent_aeCreateEventLoop setsize memory isOpen hfe
    exact maskOf_of_fileEvent hfe

/-- **What every run keeps**, whatever becomes of the descriptors. -/
structure WellFormed (loop : AeEventLoop Proc Data) : Prop where
  /-- The array has the size it is said to have. -/
  length : (loop.events.length : ℤ) = loop.setsize
  /-- `maxfd` is the highest descriptor registered. -/
  maxfd : IsMaxfd loop.maskOf loop.maxfd
  /-- No callback is called that has not been written. -/
  written : ∀ fd fe, loop.fileEvent fd = some fe → fe.Written
  /-- The kernel watches what is registered, for what it is registered. -/
  watched : ∀ fd ee, loop.kernel.interest fd = some ee →
    loop.kernel.isOpen fd = true ∧ loop.maskOf fd ≠ aeNone ∧ ee = .ofMask (loop.maskOf fd)

/-- What is to be watched of a mask. -/
def watch (mask : Mask) : Option EpollEvent := if mask = aeNone then none else some (.ofMask mask)

/-- **The array and the kernel agree**: what is registered is watched for its mask, and
nothing else is watched. -/
def InSync (loop : AeEventLoop Proc Data) : Prop :=
  ∀ fd, loop.kernel.interest fd = watch (loop.maskOf fd)

namespace WellFormed

/-- What is not registered is not watched. -/
theorem interest_eq_none (h : loop.WellFormed) (hmask : loop.maskOf fd = aeNone) :
    loop.kernel.interest fd = none :=
  Option.eq_none_iff_forall_ne_some.mpr fun ee hee => (h.watched fd ee hee).2.1 hmask

/-- What is watched is watched for its mask. -/
theorem interest_eq (h : loop.WellFormed) (fd : ℤ) :
    loop.kernel.interest fd = none
      ∨ loop.kernel.interest fd = some (.ofMask (loop.maskOf fd)) := by
  cases hee : loop.kernel.interest fd with
  | none => exact Or.inl rfl
  | some ee => exact Or.inr (congrArg some (h.watched fd ee hee).2.2)

/-- A new event loop. -/
theorem aeCreateEventLoop (setsize : ℕ) (memory : ℕ → AeFileEvent Proc Data)
    (isOpen : ℤ → Bool) : (aeCreateEventLoop setsize memory isOpen).WellFormed := by
  refine ⟨?_, ⟨le_refl _, fun fd h => ?_, fun h => absurd rfl h⟩, fun fd fe hfe => ?_,
    fun _ _ h => nomatch h⟩
  · show (((List.range setsize).map fun i => (memory i).clear).length : ℤ) = setsize
    rw [List.length_map, List.length_range]
  · exact absurd (maskOf_aeCreateEventLoop setsize memory isOpen fd) h
  · obtain ⟨fe', rfl⟩ := fileEvent_aeCreateEventLoop setsize memory isOpen hfe
    exact AeFileEvent.written_clear fe'

/-- **One event is written.** -/
theorem write (h : loop.WellFormed) (hfe : loop.fileEvent fd = some fe)
    {fe' : AeFileEvent Proc Data} {interest : Option EpollEvent} {maxfd : ℤ}
    (hmaxfd : IsMaxfd (loop.write fd fe' interest maxfd).maskOf maxfd) (hwritten : fe'.Written)
    (hinterest : ∀ ee, interest = some ee →
      loop.kernel.isOpen fd = true ∧ fe'.mask ≠ aeNone ∧ ee = .ofMask fe'.mask) :
    (loop.write fd fe' interest maxfd).WellFormed := by
  refine ⟨?_, hmaxfd, fun fd' fe'' hfe'' => ?_, fun fd' ee hee => ?_⟩
  · show ((loop.events.set fd.toNat fe').length : ℤ) = loop.setsize
    rw [List.length_set]
    exact h.length
  · rw [fileEvent_write hfe] at hfe''
    split at hfe''
    · exact Option.some.inj hfe'' ▸ hwritten
    · exact h.written fd' fe'' hfe''
  · change Function.update loop.kernel.interest fd interest fd' = some ee at hee
    rw [maskOf_write hfe]
    by_cases hfd : fd' = fd
    · subst hfd
      rw [Function.update_self] at hee
      rw [if_pos rfl]
      exact hinterest ee hee
    · rw [Function.update_of_ne hfd] at hee
      rw [if_neg hfd]
      exact h.watched fd' ee hee

end WellFormed

/-! ## Registering -/

variable {mask : Mask} {proc : Proc} {clientData : Data} {refused : Bool}

/-- **The kernel turns a registration down**: the descriptor is not open, or it is to be
added and the kernel refuses that, or it is to be changed and is not watched. -/
def Declines (loop : AeEventLoop Proc Data) (fd : ℤ) (refused : Bool) : Prop :=
  loop.kernel.isOpen fd = false ∨ loop.maskOf fd = aeNone ∧ refused = true
    ∨ loop.maskOf fd ≠ aeNone ∧ loop.kernel.interest fd = none

/-- **A registration fails** for a descriptor that is too large, and where the kernel turns
it down. -/
def Refuses (loop : AeEventLoop Proc Data) (fd : ℤ) (refused : Bool) : Prop :=
  loop.setsize ≤ fd ∨ loop.Declines fd refused

theorem aeApiAddEvent_of_declines (h : loop.WellFormed) (hfe : loop.fileEvent fd = some fe)
    (hdeclines : loop.Declines fd refused) :
    aeApiAddEvent loop.kernel fe.mask fd mask refused = none := by
  unfold aeApiAddEvent Epoll.epollCtl
  unfold Declines at hdeclines
  rw [maskOf_of_fileEvent hfe] at hdeclines
  rcases hdeclines with hclosed | ⟨hmask, rfl⟩ | ⟨hmask, hnone⟩
  · exact if_pos hclosed
  · rw [if_pos hmask, h.interest_eq_none ((maskOf_of_fileEvent hfe).trans hmask)]
    split <;> rfl
  · rw [if_neg hmask, hnone]
    split <;> rfl

theorem aeApiAddEvent_of_not_declines (h : loop.WellFormed) (hfe : loop.fileEvent fd = some fe)
    (hdeclines : ¬ loop.Declines fd refused) :
    aeApiAddEvent loop.kernel fe.mask fd mask refused
      = some ⟨loop.kernel.isOpen,
        Function.update loop.kernel.interest fd (some (.ofMask (fe.mask ||| mask)))⟩ := by
  unfold aeApiAddEvent Epoll.epollCtl
  unfold Declines at hdeclines
  rw [maskOf_of_fileEvent hfe] at hdeclines
  push Not at hdeclines
  obtain ⟨hopen, hadd, hmod⟩ := hdeclines
  rw [if_neg hopen, BitVec.or_comm]
  by_cases hmask : fe.mask = aeNone
  · rw [if_pos hmask, h.interest_eq_none ((maskOf_of_fileEvent hfe).trans hmask)]
    exact if_neg (hadd hmask)
  · obtain ⟨ee, hee⟩ := Option.ne_none_iff_exists'.mp (hmod hmask)
    rw [if_neg hmask, hee]

theorem aeCreateFileEvent_of_refuses (h : loop.WellFormed) (hfd : 0 ≤ fd)
    (hrefuses : loop.Refuses fd refused) :
    loop.aeCreateFileEvent fd mask proc clientData refused = some (loop, .err) := by
  unfold aeCreateFileEvent
  by_cases hsize : loop.setsize ≤ fd
  · exact if_pos hsize
  · obtain ⟨fe, hfe⟩ := exists_fileEvent h.length hfd (not_le.mp hsize)
    rw [if_neg hsize, hfe, Option.bind_eq_bind, Option.bind_some,
      aeApiAddEvent_of_declines h hfe (hrefuses.resolve_left hsize)]

/-- **What a registration writes.** -/
theorem aeCreateFileEvent_of_not_refuses (h : loop.WellFormed) (hfd : 0 ≤ fd)
    (hrefuses : ¬ loop.Refuses fd refused) (mask : Mask) (proc : Proc) (clientData : Data) :
    ∃ fe, loop.fileEvent fd = some fe
      ∧ loop.aeCreateFileEvent fd mask proc clientData refused
        = some (loop.write fd (fe.register mask proc clientData)
          (some (.ofMask (fe.mask ||| mask)))
          (if fd > loop.maxfd then fd else loop.maxfd), .ok) := by
  obtain ⟨hsize, hapi⟩ := not_or.mp hrefuses
  obtain ⟨fe, hfe⟩ := exists_fileEvent h.length hfd (not_le.mp hsize)
  refine ⟨fe, hfe, ?_⟩
  unfold aeCreateFileEvent
  rw [if_neg hsize, hfe, Option.bind_eq_bind, Option.bind_some,
    aeApiAddEvent_of_not_declines h hfe hapi]
  dsimp only [setFileEvent, write]
  split <;> rfl

theorem WellFormed.register (h : loop.WellFormed) (hfe : loop.fileEvent fd = some fe)
    (hopen : loop.kernel.isOpen fd = true) (hmask : fe.mask ||| mask ≠ aeNone) (proc : Proc)
    (clientData : Data) :
    (loop.write fd (fe.register mask proc clientData) (some (.ofMask (fe.mask ||| mask)))
      (if fd > loop.maxfd then fd else loop.maxfd)).WellFormed := by
  refine h.write hfe (h.maxfd.register (fileEvent_eq_some hfe).1 ?_ fun fd' hfd' => ?_)
    ((h.written fd fe hfe).register mask proc clientData)
    fun ee hee => ⟨hopen, hmask, (Option.some.inj hee).symm⟩
  · rw [maskOf_write hfe, if_pos rfl]
    exact hmask
  · rw [maskOf_write hfe, if_neg hfd']

/-! ## Unregistering -/

/-- What `epoll_ctl` makes of a removal, or of a change. -/
theorem aeApiDelEvent_eq (h : loop.WellFormed) (old : Mask) :
    aeApiDelEvent loop.kernel old fd mask
      = ⟨loop.kernel.isOpen, Function.update loop.kernel.interest fd
        ((loop.kernel.interest fd).bind fun _ => watch (old &&& ~~~mask))⟩ := by
  unfold aeApiDelEvent Epoll.epollCtl watch
  dsimp only
  cases hee : loop.kernel.interest fd with
  | none =>
    -- neither can be done, and nothing looks at that
    have hsame : loop.kernel = ⟨loop.kernel.isOpen,
        Function.update loop.kernel.interest fd none⟩ := by
      rw [← hee, Function.update_eq_self]
    rw [Option.bind_none, ← hsame]
    by_cases hmask : old &&& ~~~mask = aeNone
    · rw [if_neg (not_not.mpr hmask)]
      split <;> rfl
    · rw [if_pos hmask]
      split <;> rfl
  | some ee =>
    rw [if_neg (by rw [(h.watched fd ee hee).1]; exact nofun), Option.bind_some]
    by_cases hmask : old &&& ~~~mask = aeNone
    · rw [if_neg (not_not.mpr hmask), if_pos hmask]
      rfl
    · rw [if_pos hmask, if_neg hmask]
      rfl

theorem aeDeleteFileEvent_of_none (h : loop.WellFormed) (hfd : 0 ≤ fd)
    (hmask : loop.maskOf fd = aeNone) : loop.aeDeleteFileEvent fd mask = some loop := by
  unfold aeDeleteFileEvent
  by_cases hsize : loop.setsize ≤ fd
  · exact if_pos hsize
  · obtain ⟨fe, hfe⟩ := exists_fileEvent h.length hfd (not_le.mp hsize)
    rw [if_neg hsize, hfe, Option.bind_eq_bind, Option.bind_some,
      if_pos ((maskOf_of_fileEvent hfe).symm.trans hmask)]

/-- **What a removal writes.** -/
theorem exists_aeDeleteFileEvent (h : loop.WellFormed) (hmask : loop.maskOf fd ≠ aeNone)
    (mask : Mask) :
    ∃ fe maxfd, loop.fileEvent fd = some fe
      ∧ IsMaxfd (loop.write fd (fe.unregister mask)
        ((loop.kernel.interest fd).bind fun _ => watch (fe.mask &&& ~~~mask)) maxfd).maskOf maxfd
      ∧ loop.aeDeleteFileEvent fd mask = some (loop.write fd (fe.unregister mask)
        ((loop.kernel.interest fd).bind fun _ => watch (fe.mask &&& ~~~mask)) maxfd) := by
  obtain ⟨hfd, hlt, fe, hfe, heq⟩ := bounds_of_maskOf h.length hmask
  have hdelete : loop.aeDeleteFileEvent fd mask
      = if fd = loop.maxfd ∧ (fe.unregister mask).mask = aeNone then
          some (loop.write fd (fe.unregister mask)
            ((loop.kernel.interest fd).bind fun _ => watch (fe.mask &&& ~~~mask))
            (searchMaxfd (loop.events.set fd.toNat (fe.unregister mask)) loop.maxfd.toNat))
        else some (loop.write fd (fe.unregister mask)
          ((loop.kernel.interest fd).bind fun _ => watch (fe.mask &&& ~~~mask)) loop.maxfd) := by
    unfold aeDeleteFileEvent
    rw [if_neg (not_le.mpr hlt), hfe, Option.bind_eq_bind, Option.bind_some,
      if_neg (heq ▸ hmask), aeApiDelEvent_eq h]
    rfl
  -- no mask has come that was not there
  have hsub : ∀ interest maxfd fd',
      (loop.write fd (fe.unregister mask) interest maxfd).maskOf fd' ≠ aeNone →
        loop.maskOf fd' ≠ aeNone := by
    intro interest maxfd fd'
    rw [maskOf_write hfe]
    split
    · rename_i hfd'
      rw [hfd']
      exact fun _ => hmask
    · exact id
  rw [hdelete]
  split
  · rename_i hgone
    obtain ⟨hmax, hnone⟩ := hgone
    refine ⟨fe, _, hfe, isMaxfd_searchMaxfd ?_ fun fd' hfd' => ?_, rfl⟩
    · show ((loop.events.set fd.toNat _).length : ℤ) = loop.setsize
      rw [List.length_set]
      exact h.length
    · have hle := h.maxfd.above fd' (hsub _ _ fd' hfd')
      have hne : fd' ≠ loop.maxfd := by
        rintro rfl
        rw [maskOf_write hfe, if_pos hmax.symm] at hfd'
        exact hfd' hnone
      omega
  · rename_i hstays
    refine ⟨fe, _, hfe, h.maxfd.keep (hsub _ _) fun htop => ?_, rfl⟩
    rw [maskOf_write hfe]
    split
    · rename_i hfd'
      exact fun hnone => hstays ⟨hfd'.symm, hnone⟩
    · exact htop

theorem WellFormed.unregister (h : loop.WellFormed) (hfe : loop.fileEvent fd = some fe)
    {maxfd : ℤ} (hmaxfd : IsMaxfd (loop.write fd (fe.unregister mask)
      ((loop.kernel.interest fd).bind fun _ => watch (fe.mask &&& ~~~mask)) maxfd).maskOf maxfd) :
    (loop.write fd (fe.unregister mask)
      ((loop.kernel.interest fd).bind fun _ => watch (fe.mask &&& ~~~mask)) maxfd).WellFormed := by
  refine h.write hfe hmaxfd ((h.written fd fe hfe).unregister mask) fun ee hee => ?_
  obtain ⟨old, hold, hwatch⟩ := Option.bind_eq_some_iff.mp hee
  unfold watch at hwatch
  split at hwatch
  · cases hwatch
  · rename_i hmask
    exact ⟨(h.watched fd old hold).1, hmask, (Option.some.inj hwatch).symm⟩

/-! ## Resizing, and what becomes of descriptors -/

variable {setsize : ℤ} {memory : ℕ → AeFileEvent Proc Data}

/-- **A size is refused** if a descriptor is registered that does not fit, or none can
fit. -/
theorem aeResizeSetSize_of_le (hne : setsize ≠ loop.setsize) (hle : setsize ≤ loop.maxfd) :
    loop.aeResizeSetSize setsize memory = (loop, .err) := by
  unfold aeResizeSetSize
  rw [if_neg hne, if_pos hle]

/-- What a change of size leaves. -/
theorem aeResizeSetSize_of_lt (hne : setsize ≠ loop.setsize) (hlt : loop.maxfd < setsize)
    (memory : ℕ → AeFileEvent Proc Data) :
    (loop.aeResizeSetSize setsize memory).2 = .ok
      ∧ (loop.aeResizeSetSize setsize memory).1.maxfd = loop.maxfd
      ∧ (loop.aeResizeSetSize setsize memory).1.setsize = setsize
      ∧ (loop.aeResizeSetSize setsize memory).1.kernel = loop.kernel := by
  unfold aeResizeSetSize
  rw [if_neg hne, if_neg (not_le.mpr hlt)]
  exact ⟨rfl, rfl, rfl, rfl⟩

/-- The events after a change of size. -/
theorem getElem?_aeResizeSetSize (hne : setsize ≠ loop.setsize) (hlt : loop.maxfd < setsize)
    (i : ℕ) :
    (loop.aeResizeSetSize setsize memory).1.events[i]?
      = if i < setsize.toNat then
          some (if loop.maxfd + 1 ≤ i then ((loop.events[i]?).getD (memory i)).clear
            else (loop.events[i]?).getD (memory i))
        else none := by
  unfold aeResizeSetSize
  rw [if_neg hne, if_neg (not_le.mpr hlt)]
  dsimp only
  rw [List.getElem?_mapIdx, List.getElem?_map]
  by_cases hi : i < setsize.toNat
  · rw [if_pos hi, List.getElem?_range hi, Option.map_some, Option.map_some]
  · have hrange : (List.range setsize.toNat)[i]? = none :=
      List.getElem?_eq_none (List.length_range.trans_le (not_lt.mp hi))
    rw [if_neg hi, hrange, Option.map_none, Option.map_none]

/-- **A change of size keeps what is registered**, and what it makes room for is not. -/
theorem fileEvent_aeResizeSetSize (h : loop.WellFormed) (hne : setsize ≠ loop.setsize)
    (hlt : loop.maxfd < setsize) (memory : ℕ → AeFileEvent Proc Data) (fd : ℤ) :
    (fd ≤ loop.maxfd →
        (loop.aeResizeSetSize setsize memory).1.fileEvent fd = loop.fileEvent fd)
      ∧ (loop.maxfd < fd →
        ∀ fe, (loop.aeResizeSetSize setsize memory).1.fileEvent fd = some fe →
          ∃ fe', fe = AeFileEvent.clear fe') := by
  unfold fileEvent
  rw [getElem?_aeResizeSetSize hne hlt]
  refine ⟨fun hle => ?_, fun hgt fe hfe => ?_⟩
  · split
    · rfl
    · rename_i hfd
      -- what is not above the highest descriptor is in the array as it was
      obtain ⟨-, hmax, -⟩ := bounds_of_maskOf h.length (h.maxfd.top (by omega))
      have hidx : fd.toNat < loop.events.length := by
        have hlen := h.length
        omega
      rw [if_pos (by omega), if_neg (by omega), List.getElem?_eq_getElem hidx, Option.getD_some]
  · split at hfe
    · cases hfe
    · split at hfe
      · rw [if_pos (by omega)] at hfe
        exact ⟨_, (Option.some.inj hfe).symm⟩
      · cases hfe

theorem maskOf_aeResizeSetSize (h : loop.WellFormed) (hne : setsize ≠ loop.setsize)
    (hlt : loop.maxfd < setsize) (memory : ℕ → AeFileEvent Proc Data) (fd : ℤ) :
    (loop.aeResizeSetSize setsize memory).1.maskOf fd = loop.maskOf fd := by
  obtain ⟨hkeeps, hclears⟩ := fileEvent_aeResizeSetSize h hne hlt memory fd
  by_cases hle : fd ≤ loop.maxfd
  · unfold maskOf
    rw [hkeeps hle]
  · have hnone : loop.maskOf fd = aeNone := by
      by_contra hmask
      exact hle (h.maxfd.above fd hmask)
    rw [hnone]
    cases hfe : (loop.aeResizeSetSize setsize memory).1.fileEvent fd with
    | none =>
      unfold maskOf
      rw [hfe]
      rfl
    | some fe =>
      obtain ⟨fe', rfl⟩ := hclears (not_le.mp hle) fe hfe
      exact maskOf_of_fileEvent hfe

namespace WellFormed

theorem resize (h : loop.WellFormed) (hne : setsize ≠ loop.setsize) (hlt : loop.maxfd < setsize) :
    (loop.aeResizeSetSize setsize memory).1.WellFormed := by
  have hmask := maskOf_aeResizeSetSize h hne hlt memory
  obtain ⟨-, hmaxfd, hsize, hkernel⟩ := aeResizeSetSize_of_lt hne hlt memory
  have hlen : (loop.aeResizeSetSize setsize memory).1.events.length = setsize.toNat := by
    unfold aeResizeSetSize
    rw [if_neg hne, if_neg (not_le.mpr hlt)]
    dsimp only
    rw [List.length_mapIdx, List.length_map, List.length_range]
  refine ⟨?_, ?_, fun fd fe hfe => ?_, fun fd ee hee => ?_⟩
  · rw [hlen, hsize]
    have hleast := h.maxfd.least
    omega
  · rw [hmaxfd, funext hmask]
    exact h.maxfd
  · obtain ⟨hkeeps, hclears⟩ := fileEvent_aeResizeSetSize h hne hlt memory fd
    by_cases hle : fd ≤ loop.maxfd
    · exact h.written fd fe (hkeeps hle ▸ hfe)
    · obtain ⟨fe', rfl⟩ := hclears (not_le.mp hle) fe hfe
      exact AeFileEvent.written_clear fe'
  · rw [hkernel] at hee ⊢
    rw [hmask]
    exact h.watched fd ee hee

theorem opened (h : loop.WellFormed) (fd : ℤ) :
    WellFormed { loop with kernel := loop.kernel.opened fd } where
  length := h.length
  maxfd := h.maxfd
  written := h.written
  watched fd' ee hee := by
    obtain ⟨hopen, hmask⟩ := h.watched fd' ee hee
    refine ⟨?_, hmask⟩
    show Function.update loop.kernel.isOpen fd true fd' = true
    rw [Function.update_apply]
    split
    · rfl
    · exact hopen

theorem closed (h : loop.WellFormed) (fd : ℤ) :
    WellFormed { loop with kernel := loop.kernel.closed fd } where
  length := h.length
  maxfd := h.maxfd
  written := h.written
  watched fd' ee hee := by
    change Function.update loop.kernel.interest fd none fd' = some ee at hee
    by_cases hfd : fd' = fd
    · subst hfd
      rw [Function.update_self] at hee
      cases hee
    · rw [Function.update_of_ne hfd] at hee
      refine ⟨?_, (h.watched fd' ee hee).2⟩
      show Function.update loop.kernel.isOpen fd false fd' = true
      rw [Function.update_of_ne hfd]
      exact (h.watched fd' ee hee).1

end WellFormed

end AeEventLoop

/-! ## Runs -/

/-- **What happens to an event loop**, and to the descriptors it may watch. -/
inductive TableOp (Proc Data : Type) where
  | create (fd : ℤ) (mask : Mask) (proc : Proc) (clientData : Data) (refused : Bool)
  | delete (fd : ℤ) (mask : Mask)
  | resize (setsize : ℤ) (memory : ℕ → AeFileEvent Proc Data)
  /-- A descriptor is handed out. -/
  | opened (fd : ℤ)
  /-- A descriptor is closed. -/
  | closed (fd : ℤ)

namespace TableOp

/-- **A call of the kind that is meant**: about a descriptor, and a registration is for
something. -/
def Proper : TableOp Proc Data → Prop
  | create fd mask _ _ _ => 0 ≤ fd ∧ mask ≠ aeNone
  | delete fd _ => 0 ≤ fd
  | _ => True

/-- An attempt to register a descriptor. -/
def Creates (op : TableOp Proc Data) (fd : ℤ) : Prop :=
  match op with
  | .create fd' _ _ _ _ => fd' = fd
  | _ => False

/-- A removal of a descriptor. -/
def Deletes (op : TableOp Proc Data) (fd : ℤ) : Prop :=
  match op with
  | .delete fd' _ => fd' = fd
  | _ => False

/-- A call with a negative descriptor. -/
def Negative : TableOp Proc Data → Prop
  | create fd _ _ _ _ => fd < 0
  | delete fd _ => fd < 0
  | _ => False

end TableOp

namespace AeEventLoop

/-- One operation, with what it returns. -/
def perform (loop : AeEventLoop Proc Data) :
    TableOp Proc Data → Option (AeEventLoop Proc Data × AeStatus)
  | .create fd mask proc clientData refused =>
    loop.aeCreateFileEvent fd mask proc clientData refused
  | .delete fd mask => (loop.aeDeleteFileEvent fd mask).map fun loop => (loop, .ok)
  | .resize setsize memory => some (loop.aeResizeSetSize setsize memory)
  | .opened fd => some ({ loop with kernel := loop.kernel.opened fd }, .ok)
  | .closed fd => some ({ loop with kernel := loop.kernel.closed fd }, .ok)

/-- One operation after the other. -/
def run (loop : AeEventLoop Proc Data) :
    List (TableOp Proc Data) → Option (AeEventLoop Proc Data × List AeStatus)
  | [] => some (loop, [])
  | op :: ops => do
    let (loop, status) ← loop.perform op
    let (loop, statuses) ← loop.run ops
    some (loop, status :: statuses)

theorem run_cons {loop loop' loop'' : AeEventLoop Proc Data} {op : TableOp Proc Data}
    {ops : List (TableOp Proc Data)} {status : AeStatus} {statuses : List AeStatus}
    (hperform : loop.perform op = some (loop', status))
    (hrun : loop'.run ops = some (loop'', statuses)) :
    loop.run (op :: ops) = some (loop'', status :: statuses) := by
  rw [run, hperform, Option.bind_eq_bind, Option.bind_some]
  dsimp only
  rw [hrun, Option.bind_eq_bind, Option.bind_some]

end AeEventLoop

end Ae
