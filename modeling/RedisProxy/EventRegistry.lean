import RedisProxy.EventTable
import RedisProxy.Library.Runs

/-!
# What the event table is for

A `Registry` says what the event table and the kernel's record are together: for a
set of descriptors the callbacks they are registered with, each descriptor with
whether it has been closed since (`Entry.lost`). It knows no array, no highest
descriptor and no kernel.

Whatever is done to an event loop, it does what the registry does
(`AeEventLoop.refines_registry`), and what the kernel watches can be read off the
registry: the registered descriptors that are not lost. So the array and the kernel
agree through a run exactly if no descriptor is closed while it is registered
(`AeEventLoop.inSync_iff`). One that is stays lost, also when its number is handed
out again: nothing is reported of it, and each attempt to register it fails, until it
has been deleted (`AeEventLoop.lost_of_run`).
-/

namespace Ae

open Runs

variable {Proc Data : Type}

/-! ## The registry -/

/-- What a descriptor is registered with. -/
@[ext]
structure Entry (Proc Data : Type) where
  /-- For which events. -/
  mask : Mask
  /-- Who is called when it is readable. -/
  reader : Option Proc
  /-- Who is called when it is writable. -/
  writer : Option Proc
  /-- With which data. -/
  clientData : Data
  /-- Whether it has been closed since. -/
  lost : Bool

namespace Entry

/-- A descriptor is registered, or registered for more. -/
def add (entry : Option (Entry Proc Data)) (mask : Mask) (proc : Proc) (clientData : Data) :
    Entry Proc Data where
  mask := (entry.map Entry.mask).getD aeNone ||| mask
  reader := if Mask.has mask aeReadable then some proc else entry.bind Entry.reader
  writer := if Mask.has mask aeWritable then some proc else entry.bind Entry.writer
  clientData := clientData
  lost := false

/-- A descriptor is registered for what is left. -/
def remove (entry : Entry Proc Data) (mask : Mask) : Option (Entry Proc Data) :=
  let left := entry.mask &&& ~~~mask
  if left = aeNone then none
  else some { entry with
    mask := left
    reader := if Mask.has left aeReadable then entry.reader else none
    writer := if Mask.has left aeWritable then entry.writer else none }

/-- What is to be reported of a descriptor. -/
def interest (entry : Entry Proc Data) : Option EpollEvent :=
  if entry.lost then none else some (.ofMask entry.mask)

end Entry

/-- **What an event loop is for.** -/
@[ext]
structure Registry (Proc Data : Type) where
  /-- The descriptors are below this. -/
  setsize : ℤ
  /-- Which descriptors are open. -/
  isOpen : ℤ → Bool
  /-- What is registered. -/
  entries : ℤ → Option (Entry Proc Data)

namespace Registry

/-- Nothing is registered. -/
def new (setsize : ℤ) (isOpen : ℤ → Bool) : Registry Proc Data where
  setsize := setsize
  isOpen := isOpen
  entries := fun _ => none

/-- **A descriptor can be registered** if it is small enough and open, and either is not
registered and the kernel takes it, or is registered and not lost. -/
def Admits (r : Registry Proc Data) (fd : ℤ) (refused : Bool) : Prop :=
  fd < r.setsize ∧ r.isOpen fd = true
    ∧ (r.entries fd).elim (refused = false) fun entry => entry.lost = false

/-- **A size will do** if no registered descriptor is too large for it. -/
def Fits (r : Registry Proc Data) (setsize : ℤ) : Prop :=
  0 ≤ setsize ∧ ∀ fd, r.entries fd ≠ none → fd < setsize

open Classical in
/-- One operation, with what it returns. -/
noncomputable def perform (r : Registry Proc Data) :
    TableOp Proc Data → Registry Proc Data × AeStatus
  | .create fd mask proc clientData refused =>
    if r.Admits fd refused then
      ({ r with
          entries := Function.update r.entries fd
            (some (.add (r.entries fd) mask proc clientData)) }, .ok)
    else (r, .err)
  | .delete fd mask =>
    ({ r with
        entries := Function.update r.entries fd
          ((r.entries fd).bind fun entry => entry.remove mask) }, .ok)
  | .resize setsize _ =>
    if setsize = r.setsize then (r, .ok)
    else if r.Fits setsize then ({ r with setsize := setsize }, .ok)
    else (r, .err)
  | .opened fd => ({ r with isOpen := Function.update r.isOpen fd true }, .ok)
  | .closed fd =>
    ({ r with
        isOpen := Function.update r.isOpen fd false
        entries := Function.update r.entries fd
          ((r.entries fd).map fun entry => { entry with lost := true }) }, .ok)

/-- One operation after the other. -/
noncomputable def run (r : Registry Proc Data) :
    List (TableOp Proc Data) → Registry Proc Data × List AeStatus
  | [] => (r, [])
  | op :: ops =>
    let (r', status) := r.perform op
    ((r'.run ops).1, status :: (r'.run ops).2)

variable {r : Registry Proc Data} {fd : ℤ} {mask : Mask} {proc : Proc} {clientData : Data}
  {refused : Bool} {setsize : ℤ}
  {memory : ℕ → AeFileEvent Proc Data}

theorem perform_create_of_admits (hadmits : r.Admits fd refused) :
    r.perform (.create fd mask proc clientData refused)
      = ({ r with
          entries := Function.update r.entries fd
            (some (.add (r.entries fd) mask proc clientData)) }, .ok) :=
  if_pos hadmits

theorem perform_create_of_not_admits (hadmits : ¬ r.Admits fd refused) :
    r.perform (.create fd mask proc clientData refused) = (r, .err) :=
  if_neg hadmits

theorem perform_resize_of_same (hsame : setsize = r.setsize) :
    r.perform (.resize setsize memory) = (r, .ok) :=
  if_pos hsame

theorem perform_resize_of_fits (hsame : setsize ≠ r.setsize) (hfits : r.Fits setsize) :
    r.perform (.resize setsize memory) = ({ r with setsize := setsize }, .ok) :=
  (if_neg hsame).trans (if_pos hfits)

theorem perform_resize_of_not_fits (hsame : setsize ≠ r.setsize) (hfits : ¬ r.Fits setsize) :
    r.perform (.resize setsize memory) = (r, .err) :=
  (if_neg hsame).trans (if_neg hfits)

/-- A change of size registers nothing and unregisters nothing. -/
theorem entries_resize (r : Registry Proc Data) (setsize : ℤ)
    (memory : ℕ → AeFileEvent Proc Data) :
    (r.perform (.resize setsize memory)).1.entries = r.entries := by
  by_cases hsame : setsize = r.setsize
  · rw [perform_resize_of_same hsame]
  · by_cases hfits : r.Fits setsize
    · rw [perform_resize_of_fits hsame hfits]
    · rw [perform_resize_of_not_fits hsame hfits]

/-! ## Lost descriptors -/

/-- No descriptor is lost. -/
def NoneLost (r : Registry Proc Data) : Prop :=
  ∀ fd entry, r.entries fd = some entry → entry.lost = false

/-- What is closed is not registered. -/
def ClosesUnregistered (r : Registry Proc Data) : TableOp Proc Data → Prop
  | .closed fd => r.entries fd = none
  | _ => True

/-- One descriptor gets another entry. -/
theorem NoneLost.update (h : r.NoneLost) {entry : Option (Entry Proc Data)}
    (hentry : ∀ e, entry = some e → e.lost = false) {r' : Registry Proc Data}
    (hr' : r'.entries = Function.update r.entries fd entry) : r'.NoneLost := by
  intro fd' e he
  rw [hr', Function.update_apply] at he
  split at he
  · exact hentry e he
  · exact h fd' e he

/-- **An operation loses a descriptor** exactly if it closes one that is registered. -/
theorem NoneLost.perform_iff (h : r.NoneLost) (op : TableOp Proc Data) :
    (r.perform op).1.NoneLost ↔ r.ClosesUnregistered op := by
  cases op with
  | create fd mask proc clientData refused =>
    refine iff_of_true ?_ trivial
    by_cases hadmits : r.Admits fd refused
    · rw [perform_create_of_admits hadmits]
      refine h.update (fun e he => ?_) rfl
      rw [← Option.some.inj he]
      rfl
    · rw [perform_create_of_not_admits hadmits]
      exact h
  | delete fd mask =>
    refine iff_of_true (h.update (fun e he => ?_) rfl) trivial
    obtain ⟨entry, hentry, hremove⟩ := Option.bind_eq_some_iff.mp he
    unfold Entry.remove at hremove
    dsimp only at hremove
    split at hremove
    · cases hremove
    · exact Option.some.inj hremove ▸ h fd entry hentry
  | resize setsize memory =>
    refine iff_of_true ?_ trivial
    unfold NoneLost
    rw [entries_resize]
    exact h
  | opened fd => exact iff_of_true h trivial
  | closed fd =>
    constructor
    · intro hlost
      cases hentry : r.entries fd with
      | none => exact hentry
      | some entry =>
        refine absurd (hlost fd { entry with lost := true } ?_) nofun
        show Function.update r.entries fd ((r.entries fd).map _) fd = _
        rw [Function.update_self, hentry, Option.map_some]
    · intro hnone
      refine h.update (fun e he => ?_) rfl
      rw [show r.entries fd = none from hnone, Option.map_none] at he
      cases he

/-- **A lost descriptor stays lost** unless it is deleted, and cannot be registered. -/
theorem perform_lost {entry : Entry Proc Data} (hentry : r.entries fd = some entry)
    (hlost : entry.lost = true) {op : TableOp Proc Data} (hop : ¬ op.Deletes fd) :
    (r.perform op).1.entries fd = some entry ∧ (op.Creates fd → (r.perform op).2 = .err) := by
  cases op with
  | create fd' mask proc clientData refused =>
    by_cases hfd' : fd' = fd
    · subst hfd'
      have hadmits : ¬ r.Admits fd' refused := by
        rintro ⟨-, -, hfree⟩
        rw [hentry, Option.elim_some, hlost] at hfree
        cases hfree
      rw [perform_create_of_not_admits hadmits]
      exact ⟨hentry, fun _ => rfl⟩
    · refine ⟨?_, fun hcreates => absurd hcreates hfd'⟩
      by_cases hadmits : r.Admits fd' refused
      · rw [perform_create_of_admits hadmits]
        exact (Function.update_of_ne (Ne.symm hfd') ..).trans hentry
      · rw [perform_create_of_not_admits hadmits]
        exact hentry
  | delete fd' mask =>
    exact ⟨(Function.update_of_ne (Ne.symm hop) ..).trans hentry, False.elim⟩
  | resize setsize memory =>
    rw [entries_resize]
    exact ⟨hentry, False.elim⟩
  | opened fd' => exact ⟨hentry, False.elim⟩
  | closed fd' =>
    refine ⟨?_, False.elim⟩
    show Function.update r.entries fd' ((r.entries fd').map _) fd = some entry
    by_cases hfd' : fd = fd'
    · subst hfd'
      rw [Function.update_self, hentry, Option.map_some, ← hlost]
    · rw [Function.update_of_ne hfd']
      exact hentry

/-- **In a run without a removal.** -/
theorem run_lost {entry : Entry Proc Data} (hentry : r.entries fd = some entry)
    (hlost : entry.lost = true) {ops : List (TableOp Proc Data)}
    (hops : ∀ op ∈ ops, ¬ op.Deletes fd) :
    (r.run ops).1.entries fd = some entry
      ∧ ∀ (i : ℕ) (op : TableOp Proc Data), ops[i]? = some op → op.Creates fd →
        (r.run ops).2[i]? = some .err := by
  induction ops generalizing r with
  | nil => exact ⟨hentry, fun _ _ h => nomatch h⟩
  | cons op ops ih =>
    obtain ⟨hkeeps, herr⟩ := perform_lost hentry hlost (hops op List.mem_cons_self)
    obtain ⟨hkeeps', herrs⟩ := ih hkeeps fun op hop => hops op (List.mem_cons_of_mem _ hop)
    refine ⟨hkeeps', fun i op' hop' hcreates => ?_⟩
    cases i with
    | zero =>
      obtain rfl := Option.some.inj hop'
      exact congrArg some (herr hcreates)
    | succ i => exact herrs i op' hop' hcreates

end Registry

namespace AeEventLoop

variable {loop loop' : AeEventLoop Proc Data} {fd : ℤ} {fe : AeFileEvent Proc Data}

/-! ## The registry of an event loop -/

/-- What an event is an entry for. -/
def entryOf (fe : AeFileEvent Proc Data) (interest : Option EpollEvent) :
    Option (Entry Proc Data) :=
  if fe.mask = aeNone then none
  else fe.clientData.map fun clientData =>
    { mask := fe.mask
      reader := if Mask.has fe.mask aeReadable then fe.rfileProc else none
      writer := if Mask.has fe.mask aeWritable then fe.wfileProc else none
      clientData := clientData
      lost := interest.isNone }

/-- **The registry of an event loop.** -/
def registry (loop : AeEventLoop Proc Data) : Registry Proc Data where
  setsize := loop.setsize
  isOpen := loop.kernel.isOpen
  entries fd := (loop.fileEvent fd).bind fun fe => entryOf fe (loop.kernel.interest fd)

theorem entryOf_of_mask {interest : Option EpollEvent} (hmask : fe.mask ≠ aeNone)
    {clientData : Data} (hdata : fe.clientData = some clientData) :
    entryOf fe interest = some
      { mask := fe.mask
        reader := if Mask.has fe.mask aeReadable then fe.rfileProc else none
        writer := if Mask.has fe.mask aeWritable then fe.wfileProc else none
        clientData := clientData
        lost := interest.isNone } := by
  unfold entryOf
  rw [if_neg hmask, hdata, Option.map_some]

theorem entries_of_fileEvent (hfe : loop.fileEvent fd = some fe) :
    loop.registry.entries fd = entryOf fe (loop.kernel.interest fd) := by
  show (loop.fileEvent fd).bind _ = _
  rw [hfe, Option.bind_some]

/-- The entry of a descriptor, if it has a mask. -/
theorem exists_entry (h : loop.WellFormed) (hmask : loop.maskOf fd ≠ aeNone) :
    ∃ entry, loop.registry.entries fd = some entry ∧ entry.mask = loop.maskOf fd
      ∧ entry.lost = (loop.kernel.interest fd).isNone := by
  obtain ⟨-, -, fe, hfe, heq⟩ := bounds_of_maskOf h.length hmask
  obtain ⟨clientData, hdata⟩ := Option.isSome_iff_exists.mp
    ((h.written fd fe hfe).data (heq ▸ hmask))
  have hentry := entries_of_fileEvent hfe
  rw [entryOf_of_mask (heq ▸ hmask) hdata] at hentry
  exact ⟨_, hentry, heq, rfl⟩

/-- The event of an entry. -/
theorem exists_fileEvent_of_entry {entry : Entry Proc Data}
    (hentry : loop.registry.entries fd = some entry) :
    ∃ fe, loop.fileEvent fd = some fe ∧ fe.mask = entry.mask
      ∧ fe.clientData = some entry.clientData
      ∧ (Mask.has entry.mask aeReadable = true → fe.rfileProc = entry.reader)
      ∧ (Mask.has entry.mask aeWritable = true → fe.wfileProc = entry.writer) := by
  obtain ⟨fe, hfe, hof⟩ := Option.bind_eq_some_iff.mp hentry
  unfold entryOf at hof
  split at hof
  · cases hof
  · obtain ⟨clientData, hdata, rfl⟩ := Option.map_eq_some_iff.mp hof
    exact ⟨fe, hfe, rfl, hdata, fun hread => (if_pos hread).symm,
      fun hwrite => (if_pos hwrite).symm⟩

/-- There is none, if it has no mask. -/
theorem entry_eq_none (hmask : loop.maskOf fd = aeNone) : loop.registry.entries fd = none := by
  show (loop.fileEvent fd).bind _ = none
  cases hfe : loop.fileEvent fd with
  | none => rfl
  | some fe => exact if_pos ((maskOf_of_fileEvent hfe).symm.trans hmask)

theorem entry_eq_none_iff (h : loop.WellFormed) :
    loop.registry.entries fd = none ↔ loop.maskOf fd = aeNone := by
  refine ⟨fun hnone => ?_, entry_eq_none⟩
  by_contra hmask
  obtain ⟨entry, hentry, -⟩ := exists_entry h hmask
  exact nomatch hnone.symm.trans hentry

/-- **What the kernel watches** are the registered descriptors that are not lost. -/
theorem interest_registry (h : loop.WellFormed) (fd : ℤ) :
    loop.kernel.interest fd = (loop.registry.entries fd).bind Entry.interest := by
  by_cases hmask : loop.maskOf fd = aeNone
  · rw [entry_eq_none hmask, h.interest_eq_none hmask, Option.bind_none]
  · obtain ⟨entry, hentry, hmask', hlost⟩ := exists_entry h hmask
    rw [hentry, Option.bind_some, Entry.interest, hlost, hmask']
    rcases h.interest_eq fd with hnone | hsome
    · rw [hnone]
      rfl
    · rw [hsome]
      rfl

/-- **One event is written.** -/
theorem registry_write (hfe : loop.fileEvent fd = some fe) (fe' : AeFileEvent Proc Data)
    (interest : Option EpollEvent) (maxfd : ℤ) :
    (loop.write fd fe' interest maxfd).registry
      = { loop.registry with
          entries := Function.update loop.registry.entries fd (entryOf fe' interest) } := by
  refine Registry.ext rfl rfl (funext fun fd' => ?_)
  show ((loop.write fd fe' interest maxfd).fileEvent fd').bind (fun fe => entryOf fe
      (Function.update loop.kernel.interest fd interest fd'))
    = Function.update loop.registry.entries fd (entryOf fe' interest) fd'
  rw [fileEvent_write hfe]
  by_cases hfd : fd' = fd
  · subst hfd
    rw [if_pos rfl, Function.update_self, Function.update_self, Option.bind_some]
  · rw [if_neg hfd, Function.update_of_ne hfd, Function.update_of_ne hfd]
    rfl

/-! ## What an event loop does is what its registry does -/

/-- What can be read off an entry, if there is one. -/
theorem entryOf_reads (hwritten : fe.Written) (interest : Option EpollEvent) :
    ((entryOf fe interest).map Entry.mask).getD aeNone = fe.mask
      ∧ ((entryOf fe interest).bind Entry.reader
        = if Mask.has fe.mask aeReadable then fe.rfileProc else none)
      ∧ ((entryOf fe interest).bind Entry.writer
        = if Mask.has fe.mask aeWritable then fe.wfileProc else none) := by
  by_cases hmask : fe.mask = aeNone
  · have hnone : entryOf fe interest = none := if_pos hmask
    rw [hnone, hmask, Mask.has_aeNone, Mask.has_aeNone]
    exact ⟨rfl, rfl, rfl⟩
  · obtain ⟨clientData, hdata⟩ := Option.isSome_iff_exists.mp (hwritten.data hmask)
    rw [entryOf_of_mask hmask hdata]
    exact ⟨rfl, rfl, rfl⟩

/-- Who is called for an event, after a registration. -/
theorem callback_register (a b event : Mask) (new old : Option Proc) :
    (if Mask.has (a ||| b) event then (if Mask.has b event then new else old) else none)
      = if Mask.has b event then new else if Mask.has a event then old else none := by
  rw [Mask.has_or]
  cases Mask.has a event <;> cases Mask.has b event <;> rfl

/-- Who is called for an event, after a removal. -/
theorem callback_unregister (a b event : Mask) (old : Option Proc) :
    (if Mask.has (a &&& b) event then old else none)
      = if Mask.has (a &&& b) event then if Mask.has a event then old else none else none := by
  split
  · rename_i hleft
    rw [if_pos (Mask.has_of_and hleft)]
  · rfl

/-- A registration. -/
theorem entryOf_register (hwritten : fe.Written) (interest : Option EpollEvent) {mask : Mask}
    (hmask : mask ≠ aeNone) (proc : Proc) (clientData : Data) (ee : EpollEvent) :
    entryOf (fe.register mask proc clientData) (some ee)
      = some (.add (entryOf fe interest) mask proc clientData) := by
  obtain ⟨hold, hreader, hwriter⟩ := entryOf_reads hwritten interest
  rw [entryOf_of_mask (Mask.or_ne_aeNone hmask) rfl, Option.some_inj]
  refine Entry.ext (congrArg (· ||| mask) hold.symm) ?_ ?_ rfl rfl
  · show (if _ then _ else _) = if _ then _ else (entryOf fe interest).bind Entry.reader
    rw [hreader]
    exact callback_register fe.mask mask aeReadable (some proc) fe.rfileProc
  · show (if _ then _ else _) = if _ then _ else (entryOf fe interest).bind Entry.writer
    rw [hwriter]
    exact callback_register fe.mask mask aeWritable (some proc) fe.wfileProc

/-- A removal. -/
theorem entryOf_unregister (hwritten : fe.Written) (interest : Option EpollEvent)
    (mask : Mask) :
    entryOf (fe.unregister mask) (interest.bind fun _ => watch (fe.mask &&& ~~~mask))
      = (entryOf fe interest).bind fun entry => entry.remove mask := by
  by_cases hleft : fe.mask &&& ~~~mask = aeNone
  · have hnone : ∀ entry ∈ entryOf fe interest, entry.remove mask = none := by
      intro entry hentry
      unfold entryOf at hentry
      split at hentry
      · cases hentry
      · obtain ⟨clientData, -, rfl⟩ := Option.map_eq_some_iff.mp hentry
        exact if_pos hleft
    rw [Option.bind_eq_none_iff.mpr hnone]
    exact if_pos hleft
  · have hmask : fe.mask ≠ aeNone := Mask.ne_aeNone_of_and hleft
    obtain ⟨clientData, hdata⟩ := Option.isSome_iff_exists.mp (hwritten.data hmask)
    rw [entryOf_of_mask hmask hdata, Option.bind_some, Entry.remove]
    dsimp only
    have hmask' : (fe.unregister mask).mask ≠ aeNone := hleft
    rw [if_neg hleft, entryOf_of_mask hmask' hdata, Option.some_inj]
    refine Entry.ext rfl (callback_unregister ..) (callback_unregister ..) rfl ?_
    show (interest.bind fun _ => watch (fe.mask &&& ~~~mask)).isNone = interest.isNone
    unfold watch
    rw [if_neg hleft]
    cases interest <;> rfl

theorem admits_iff (h : loop.WellFormed) {refused : Bool} :
    loop.registry.Admits fd refused ↔ ¬ loop.Refuses fd refused := by
  unfold Registry.Admits Refuses Declines
  by_cases hmask : loop.maskOf fd = aeNone
  · rw [entry_eq_none hmask, Option.elim_none]
    show (fd < loop.setsize ∧ loop.kernel.isOpen fd = true ∧ _) ↔ _
    simp only [not_or, not_le, not_and, hmask, Bool.not_eq_false, Bool.not_eq_true, ne_eq,
      not_true_eq_false, false_imp_iff, true_imp_iff, and_true]
  · obtain ⟨entry, hentry, -, hlost⟩ := exists_entry h hmask
    rw [hentry, Option.elim_some, hlost, Option.isNone_eq_false_iff,
      ← Option.ne_none_iff_isSome]
    show (fd < loop.setsize ∧ loop.kernel.isOpen fd = true ∧ _) ↔ _
    simp only [not_or, not_le, not_and, hmask, Bool.not_eq_false, ne_eq, not_false_eq_true,
      false_imp_iff, true_and]

theorem fits_iff (h : loop.WellFormed) {setsize : ℤ} :
    loop.registry.Fits setsize ↔ loop.maxfd < setsize := by
  constructor
  · rintro ⟨hpos, hfits⟩
    by_cases hmax : loop.maxfd = -1
    · omega
    · exact hfits _ fun hnone => h.maxfd.top hmax ((entry_eq_none_iff h).mp hnone)
  · intro hlt
    have hleast := h.maxfd.least
    refine ⟨by omega, fun fd hfd => ?_⟩
    have habove := h.maxfd.above fd fun hmask => hfd (entry_eq_none hmask)
    omega

/-- What an operation is to do: return what the registry returns, and leave what it
leaves. -/
def Refines (loop : AeEventLoop Proc Data) (op : TableOp Proc Data) : Prop :=
  ∃ loop', loop.perform op = some (loop', (loop.registry.perform op).2)
    ∧ loop'.registry = (loop.registry.perform op).1 ∧ loop'.WellFormed

theorem refines_create (h : loop.WellFormed) (hfd : 0 ≤ fd) {mask : Mask} (hmask : mask ≠ aeNone)
    (proc : Proc) (clientData : Data) (refused : Bool) :
    loop.Refines (.create fd mask proc clientData refused) := by
  by_cases hrefuses : loop.Refuses fd refused
  · have hadmits : ¬ loop.registry.Admits fd refused := fun hadmits =>
      (admits_iff h).mp hadmits hrefuses
    unfold Refines
    rw [Registry.perform_create_of_not_admits hadmits]
    exact ⟨loop, aeCreateFileEvent_of_refuses h hfd hrefuses, rfl, h⟩
  · obtain ⟨fe, hfe, hcreate⟩ :=
      aeCreateFileEvent_of_not_refuses h hfd hrefuses mask proc clientData
    have hadmits := (admits_iff h).mpr hrefuses
    unfold Refines
    rw [Registry.perform_create_of_admits hadmits]
    refine ⟨_, hcreate, ?_,
      h.register hfe hadmits.2.1 (Mask.or_ne_aeNone hmask) proc clientData⟩
    rw [registry_write hfe, entries_of_fileEvent hfe,
      entryOf_register (h.written fd fe hfe) (loop.kernel.interest fd) hmask]

theorem refines_delete (h : loop.WellFormed) (hfd : 0 ≤ fd) (mask : Mask) :
    loop.Refines (.delete fd mask) := by
  by_cases hmask : loop.maskOf fd = aeNone
  · refine ⟨loop, ?_, ?_, h⟩
    · show (loop.aeDeleteFileEvent fd mask).map _ = _
      rw [aeDeleteFileEvent_of_none h hfd hmask]
      rfl
    · refine Registry.ext rfl rfl ?_
      show loop.registry.entries = Function.update loop.registry.entries fd
        ((loop.registry.entries fd).bind fun entry => entry.remove mask)
      rw [entry_eq_none hmask, Option.bind_none, ← entry_eq_none hmask,
        Function.update_eq_self]
  · obtain ⟨fe, maxfd, hfe, hmaxfd, hdelete⟩ := exists_aeDeleteFileEvent h hmask mask
    refine ⟨_, ?_, ?_, h.unregister hfe hmaxfd⟩
    · show (loop.aeDeleteFileEvent fd mask).map _ = _
      rw [hdelete]
      rfl
    · rw [registry_write hfe, entryOf_unregister (h.written fd fe hfe), ← entries_of_fileEvent hfe]
      rfl

theorem refines_resize (h : loop.WellFormed) (setsize : ℤ)
    (memory : ℕ → AeFileEvent Proc Data) : loop.Refines (.resize setsize memory) := by
  by_cases hsame : setsize = loop.setsize
  · unfold Refines
    rw [Registry.perform_resize_of_same hsame]
    exact ⟨loop, congrArg some (if_pos hsame), rfl, h⟩
  · by_cases hle : setsize ≤ loop.maxfd
    · have hfits : ¬ loop.registry.Fits setsize := fun hfits =>
        not_le.mpr ((fits_iff h).mp hfits) hle
      unfold Refines
      rw [Registry.perform_resize_of_not_fits hsame hfits]
      exact ⟨loop, congrArg some (aeResizeSetSize_of_le hsame hle), rfl, h⟩
    · have hlt := not_le.mp hle
      obtain ⟨hok, -, hsize, hkernel⟩ := aeResizeSetSize_of_lt hsame hlt memory
      unfold Refines
      rw [Registry.perform_resize_of_fits hsame ((fits_iff h).mpr hlt)]
      refine ⟨_, congrArg some (Prod.ext rfl hok), ?_, h.resize hsame hlt⟩
      refine Registry.ext hsize (congrArg Epoll.isOpen hkernel) (funext fun fd => ?_)
      show _ = loop.registry.entries fd
      by_cases hmask : loop.maskOf fd = aeNone
      · rw [entry_eq_none hmask]
        exact entry_eq_none ((maskOf_aeResizeSetSize h hsame hlt memory fd).trans hmask)
      · show ((loop.aeResizeSetSize setsize memory).1.fileEvent fd).bind (fun fe => entryOf fe
            ((loop.aeResizeSetSize setsize memory).1.kernel.interest fd)) = _
        rw [hkernel, (fileEvent_aeResizeSetSize h hsame hlt memory fd).1
          (h.maxfd.above fd hmask)]
        rfl

theorem refines_closed (h : loop.WellFormed) (fd : ℤ) :
    loop.Refines (.closed fd : TableOp Proc Data) := by
  refine ⟨_, rfl, ?_, h.closed fd⟩
  refine Registry.ext rfl rfl (funext fun fd' => ?_)
  show (loop.fileEvent fd').bind (fun fe => entryOf fe
      (Function.update loop.kernel.interest fd none fd'))
    = Function.update loop.registry.entries fd
      ((loop.registry.entries fd).map fun entry => { entry with lost := true }) fd'
  by_cases hfd : fd' = fd
  · subst hfd
    rw [Function.update_self, Function.update_self]
    cases hfe : loop.fileEvent fd' with
    | none =>
      have hnone : loop.registry.entries fd' = none := by
        show (loop.fileEvent fd').bind _ = none
        rw [hfe, Option.bind_none]
      rw [hnone, Option.bind_none, Option.map_none]
    | some fe =>
      rw [entries_of_fileEvent hfe, Option.bind_some]
      unfold entryOf
      split
      · rfl
      · rw [Option.map_map]
        rfl
  · rw [Function.update_of_ne hfd, Function.update_of_ne hfd]
    rfl

/-- **One operation does what the registry does.** -/
theorem WellFormed.refines (h : loop.WellFormed) {op : TableOp Proc Data} (hop : op.Proper) :
    loop.Refines op := by
  cases op with
  | create fd mask proc clientData refused =>
    exact refines_create h hop.1 hop.2 proc clientData refused
  | delete fd mask => exact refines_delete h hop mask
  | resize setsize memory => exact refines_resize h setsize memory
  | opened fd => exact ⟨_, rfl, rfl, h.opened fd⟩
  | closed fd => exact refines_closed h fd

/-- **So does a run.** -/
theorem WellFormed.run (h : loop.WellFormed) {ops : List (TableOp Proc Data)}
    (hops : ∀ op ∈ ops, op.Proper) :
    ∃ loop', loop.run ops = some (loop', (loop.registry.run ops).2)
      ∧ loop'.registry = (loop.registry.run ops).1 ∧ loop'.WellFormed := by
  induction ops generalizing loop with
  | nil => exact ⟨loop, rfl, rfl, h⟩
  | cons op ops ih =>
    obtain ⟨loop₁, hperform, hregistry, h₁⟩ := h.refines (hops op List.mem_cons_self)
    obtain ⟨loop', hrun, hregistry', h'⟩ := ih h₁ fun op hop => hops op (List.mem_cons_of_mem _ hop)
    rw [hregistry] at hrun hregistry'
    exact ⟨loop', run_cons hperform hrun, hregistry', h'⟩

theorem registry_aeCreateEventLoop (setsize : ℕ) (memory : ℕ → AeFileEvent Proc Data)
    (isOpen : ℤ → Bool) :
    (aeCreateEventLoop setsize memory isOpen).registry = .new setsize isOpen :=
  Registry.ext rfl rfl (funext fun fd =>
    entry_eq_none (maskOf_aeCreateEventLoop setsize memory isOpen fd))

/-- **An event loop is its registry**: whatever proper call is made, and whatever becomes of
the descriptors, each operation returns what it returns on the registry, the array and the
kernel hold what the registry holds, no access is outside of the array, and no callback is
registered that has not been written. -/
theorem refines_registry (setsize : ℕ) (memory : ℕ → AeFileEvent Proc Data)
    (isOpen : ℤ → Bool) {ops : List (TableOp Proc Data)} (hops : ∀ op ∈ ops, op.Proper) :
    ∃ loop, (aeCreateEventLoop setsize memory isOpen).run ops
        = some (loop, ((Registry.new setsize isOpen).run ops).2)
      ∧ loop.registry = ((Registry.new setsize isOpen).run ops).1
      ∧ (∀ fd, loop.kernel.interest fd
        = (((Registry.new setsize isOpen).run ops).1.entries fd).bind Entry.interest)
      ∧ loop.WellFormed := by
  obtain ⟨loop, hrun, hregistry, h⟩ :=
    (WellFormed.aeCreateEventLoop setsize memory isOpen).run hops
  rw [registry_aeCreateEventLoop] at hrun hregistry
  exact ⟨loop, hrun, hregistry, fun fd => hregistry ▸ interest_registry h fd, h⟩

/-- Descriptor 1 is registered for reading. -/
def createOne : TableOp Unit Unit := .create 1 aeReadable () () false

theorem proper_createOne : createOne.Proper := ⟨Int.one_nonneg, aeReadable_ne_aeNone⟩

/-- A descriptor is registered, closed, handed out again and registered anew, which fails. -/
theorem refines_registry_reopened :
    ∃ loop : AeEventLoop Unit Unit,
      (aeCreateEventLoop 2 (fun _ => ⟨7, none, none, none⟩) fun _ => true).run
          [createOne, .closed 1, .opened 1, createOne]
        = some (loop, ((Registry.new 2 fun _ => true).run
          [createOne, .closed 1, .opened 1, createOne]).2)
      ∧ loop.WellFormed := by
  obtain ⟨loop, hrun, -, -, h⟩ := @refines_registry Unit Unit 2 (fun _ => ⟨7, none, none, none⟩)
    (fun _ => true) [createOne, .closed 1, .opened 1, createOne] (by
      refine List.forall_mem_cons.mpr ⟨proper_createOne, List.forall_mem_cons.mpr ⟨trivial, ?_⟩⟩
      exact List.forall_mem_cons.mpr ⟨trivial, List.forall_mem_singleton.mpr proper_createOne⟩)
  exact ⟨loop, hrun, h⟩

/-! ## The array and the kernel -/

/-- **The array and the kernel agree** exactly if no descriptor is lost. -/
theorem noneLost_iff (h : loop.WellFormed) : loop.registry.NoneLost ↔ loop.InSync := by
  constructor
  · intro hnone fd
    by_cases hmask : loop.maskOf fd = aeNone
    · rw [h.interest_eq_none hmask, hmask]
      rfl
    obtain ⟨entry, hentry, hmask', hlost⟩ := exists_entry h hmask
    rw [watch, if_neg hmask]
    refine (h.interest_eq fd).resolve_left fun hunwatched => ?_
    rw [hunwatched, hnone fd entry hentry] at hlost
    cases hlost
  · intro hsync fd entry hentry
    have hmask : loop.maskOf fd ≠ aeNone := fun hmask =>
      nomatch (entry_eq_none hmask).symm.trans hentry
    obtain ⟨entry', hentry', -, hlost⟩ := exists_entry h hmask
    obtain rfl := Option.some.inj (hentry.symm.trans hentry')
    rw [hlost, hsync fd, watch, if_neg hmask]
    rfl

/-- **What keeps the array and the kernel in step**: what is closed is not registered, and
what is registered for nothing is registered for something already, or the call fails. -/
def KeepsInSync (loop : AeEventLoop Proc Data) : TableOp Proc Data → Prop
  | .closed fd => loop.maskOf fd = aeNone
  | .create fd mask _ _ refused => mask = aeNone → loop.maskOf fd ≠ aeNone ∨ loop.Refuses fd refused
  | _ => True

theorem closesUnregistered_iff (h : loop.WellFormed) {op : TableOp Proc Data} (hop : op.Proper) :
    loop.registry.ClosesUnregistered op ↔ loop.KeepsInSync op := by
  cases op with
  | closed fd => exact entry_eq_none_iff h
  | create fd mask proc clientData refused =>
    exact iff_of_true trivial fun hmask => absurd hmask hop.2
  | delete fd mask => exact Iff.rfl
  | resize setsize memory => exact Iff.rfl
  | opened fd => exact Iff.rfl

/-- One operation, without what it returns. -/
def step (loop : AeEventLoop Proc Data) (op : TableOp Proc Data) :
    Option (AeEventLoop Proc Data) :=
  (loop.perform op).map Prod.fst

/-- **A call with a negative descriptor** accesses what is in front of the array. -/
theorem step_eq_none_of_negative (h : loop.WellFormed) {op : TableOp Proc Data}
    (hop : op.Negative) : loop.step op = none := by
  have hnone : ∀ {fd : ℤ}, fd < 0 → ¬ fd ≥ loop.setsize ∧ loop.fileEvent fd = none :=
    fun hfd => ⟨by have := h.length; omega, if_pos hfd⟩
  cases op with
  | create fd mask proc clientData refused =>
    obtain ⟨hsize, hfe⟩ := hnone hop
    show (loop.aeCreateFileEvent fd mask proc clientData refused).map Prod.fst = none
    rw [aeCreateFileEvent, if_neg hsize, hfe]
    rfl
  | delete fd mask =>
    obtain ⟨hsize, hfe⟩ := hnone hop
    show ((loop.aeDeleteFileEvent fd mask).map _).map Prod.fst = none
    rw [aeDeleteFileEvent, if_neg hsize, hfe]
    rfl
  | resize setsize memory => exact hop.elim
  | opened fd => exact hop.elim
  | closed fd => exact hop.elim

/-- **A registration for nothing** leaves the array and the kernel in step exactly if the
descriptor is registered, or the call fails. -/
theorem inSync_create_aeNone_iff (h : loop.WellFormed) (hsync : loop.InSync) (hfd : 0 ≤ fd)
    {proc : Proc} {clientData : Data} {refused : Bool}
    (hstep : loop.step (.create fd aeNone proc clientData refused) = some loop') :
    (loop'.InSync ↔ loop.maskOf fd ≠ aeNone ∨ loop.Refuses fd refused)
      ∧ (loop.maskOf fd ≠ aeNone ∨ loop.Refuses fd refused → loop'.WellFormed) := by
  change (loop.aeCreateFileEvent fd aeNone proc clientData refused).map Prod.fst = _ at hstep
  by_cases hrefuses : loop.Refuses fd refused
  · rw [aeCreateFileEvent_of_refuses h hfd hrefuses] at hstep
    obtain rfl := Option.some.inj hstep
    exact ⟨iff_of_true hsync (Or.inr hrefuses), fun _ => h⟩
  · obtain ⟨fe, hfe, hcreate⟩ :=
      aeCreateFileEvent_of_not_refuses h hfd hrefuses aeNone proc clientData
    rw [hcreate] at hstep
    obtain rfl := Option.some.inj hstep
    have hmask := maskOf_of_fileEvent hfe
    have hsame : fe.mask ||| aeNone = fe.mask := BitVec.or_zero
    rw [or_iff_left hrefuses, hmask]
    -- a descriptor without a mask would be watched
    refine ⟨⟨fun hsync' hnone => ?_, fun hne fd' => ?_⟩, fun hne => ?_⟩
    · have hfd' := hsync' fd
      rw [maskOf_write hfe, if_pos rfl] at hfd'
      change Function.update loop.kernel.interest fd _ fd = watch (fe.mask ||| aeNone) at hfd'
      rw [Function.update_self, hsame, hnone] at hfd'
      cases hfd'
    · rw [maskOf_write hfe]
      show Function.update loop.kernel.interest fd _ fd' = _
      by_cases heq : fd' = fd
      · subst heq
        rw [Function.update_self, if_pos rfl]
        show some (EpollEvent.ofMask (fe.mask ||| aeNone)) = watch (fe.mask ||| aeNone)
        rw [hsame, watch, if_neg hne]
      · rw [Function.update_of_ne heq, if_neg heq]
        exact hsync fd'
    · refine h.register hfe ?_ (hsame.symm ▸ hne) proc clientData
      exact Bool.eq_true_of_not_eq_false fun hclosed => hrefuses (Or.inr (Or.inl hclosed))

/-- **One operation keeps the array and the kernel in step** exactly under that
condition. -/
theorem step_inSync_iff (h : loop.WellFormed) (hsync : loop.InSync) {op : TableOp Proc Data}
    (hstep : loop.step op = some loop') :
    (loop'.InSync ↔ loop.KeepsInSync op) ∧ (loop.KeepsInSync op → loop'.WellFormed) := by
  have hneg : ¬ op.Negative := fun hop =>
    nomatch (step_eq_none_of_negative h hop).symm.trans hstep
  have hproper : op.Proper →
      (loop'.InSync ↔ loop.KeepsInSync op) ∧ (loop.KeepsInSync op → loop'.WellFormed) := by
    intro hop
    obtain ⟨loop₁, hperform, hregistry, h₁⟩ := h.refines hop
    rw [step, hperform, Option.map_some] at hstep
    obtain rfl := Option.some.inj hstep
    refine ⟨?_, fun _ => h₁⟩
    rw [← noneLost_iff h₁, hregistry, ((noneLost_iff h).mpr hsync).perform_iff op,
      closesUnregistered_iff h hop]
  cases op with
  | create fd mask proc clientData refused =>
    by_cases hmask : mask = aeNone
    · subst hmask
      obtain ⟨hiff, hkeep⟩ := inSync_create_aeNone_iff h hsync (not_lt.mp hneg) hstep
      exact ⟨hiff.trans ⟨fun hor _ => hor, fun hor => hor rfl⟩, fun hor => hkeep (hor rfl)⟩
    · exact hproper ⟨not_lt.mp hneg, hmask⟩
  | delete fd mask => exact hproper (not_lt.mp hneg)
  | resize setsize memory => exact hproper trivial
  | opened fd => exact hproper trivial
  | closed fd => exact hproper trivial

/-- **The array and the kernel agree throughout a run** exactly if no descriptor is closed
while it is registered, and none comes to be registered for nothing. -/
theorem inSync_iff (setsize : ℕ) (memory : ℕ → AeFileEvent Proc Data) (isOpen : ℤ → Bool)
    (ops : List (TableOp Proc Data)) :
    Always step (fun _ _ loop => loop.InSync) (aeCreateEventLoop setsize memory isOpen) ops
      ↔ Always step (fun loop op _ => loop.KeepsInSync op)
        (aeCreateEventLoop setsize memory isOpen) ops := by
  refine always_congr (I := fun loop => loop.WellFormed ∧ loop.InSync)
    (fun loop op loop' h hstep => (step_inSync_iff h.1 h.2 hstep).1)
    (fun loop op loop' h hstep hop => ?_) ⟨.aeCreateEventLoop setsize memory isOpen, fun fd => ?_⟩
  · obtain ⟨hsync, h'⟩ := step_inSync_iff h.1 h.2 hstep
    exact ⟨h' hop, hsync.mpr hop⟩
  · rw [maskOf_aeCreateEventLoop setsize memory isOpen fd]
    rfl

/-! ## Lost descriptors -/

/-- **A descriptor that is closed while it is registered is lost**: as long as it is not
deleted it keeps its place in the array, the kernel reports nothing of it, and every attempt
to register it fails, whatever else is done and however often its number is handed out
again. -/
theorem lost_of_run {setsize : ℕ} {memory : ℕ → AeFileEvent Proc Data} {isOpen : ℤ → Bool}
    {before after : List (TableOp Proc Data)} {statuses : List AeStatus}
    (hrun : (aeCreateEventLoop setsize memory isOpen).run before = some (loop, statuses))
    (hbefore : ∀ op ∈ before, op.Proper) (hproper : ∀ op ∈ after, op.Proper)
    (hregistered : loop.maskOf fd ≠ aeNone) (hafter : ∀ op ∈ after, ¬ op.Deletes fd) :
    ∃ loop' statuses', loop.run (.closed fd :: after) = some (loop', .ok :: statuses')
      ∧ loop'.maskOf fd = loop.maskOf fd ∧ loop'.kernel.interest fd = none
      ∧ ∀ (i : ℕ) (op : TableOp Proc Data), after[i]? = some op → op.Creates fd →
        statuses'[i]? = some .err := by
  have h : loop.WellFormed := by
    obtain ⟨loop', hrun', -, h'⟩ :=
      (WellFormed.aeCreateEventLoop setsize memory isOpen).run hbefore
    obtain rfl := (Prod.ext_iff.mp (Option.some.inj (hrun.symm.trans hrun'))).1
    exact h'
  obtain ⟨entry, hentry, hmask, -⟩ := exists_entry h hregistered
  -- closing it loses it
  have hclosed : (loop.registry.perform (.closed fd)).1.entries fd
      = some { entry with lost := true } := by
    show Function.update loop.registry.entries fd ((loop.registry.entries fd).map _) fd = _
    rw [Function.update_self, hentry, Option.map_some]
  have hops : ∀ op ∈ .closed fd :: after, op.Proper := List.forall_mem_cons.mpr ⟨trivial, hproper⟩
  obtain ⟨loop', hrun', hregistry, h'⟩ := h.run hops
  obtain ⟨hkeeps, herrs⟩ := Registry.run_lost hclosed rfl hafter
  refine ⟨loop', _, hrun', ?_, ?_, herrs⟩
  · have hentry' : loop'.registry.entries fd = some { entry with lost := true } :=
      hregistry ▸ hkeeps
    have hmask' : loop'.maskOf fd ≠ aeNone := fun hnone =>
      nomatch (entry_eq_none hnone).symm.trans hentry'
    obtain ⟨entry', hentry'', heq, -⟩ := exists_entry h' hmask'
    obtain rfl := Option.some.inj (hentry'.symm.trans hentry'')
    exact heq.symm.trans hmask
  · rw [interest_registry h', hregistry]
    exact (congrArg (·.bind Entry.interest) hkeeps).trans rfl

/-- Descriptor 1 is closed while it is registered, and handed out again. -/
theorem lost_of_run_reopened :
    ∃ loop loop' : AeEventLoop Unit Unit, ∃ statuses statuses',
      (aeCreateEventLoop 2 (fun _ => ⟨7, none, none, none⟩) fun _ => true).run [createOne]
          = some (loop, statuses)
        ∧ loop.run [.closed 1, .opened 1, createOne] = some (loop', .ok :: statuses')
        ∧ loop'.kernel.interest 1 = none ∧ statuses'[1]? = some .err := by
  have hproper : ∀ op ∈ [.opened 1, createOne], op.Proper :=
    List.forall_mem_cons.mpr ⟨trivial, List.forall_mem_singleton.mpr proper_createOne⟩
  have hafter : ∀ op ∈ [.opened 1, createOne], ¬ op.Deletes 1 := by
    simp [TableOp.Deletes, createOne]
  obtain ⟨loop', statuses', hrun, -, hnone, herrs⟩ :=
    @lost_of_run Unit Unit _ 1 2 (fun _ => ⟨7, none, none, none⟩) (fun _ => true) [createOne] _ _
      rfl (List.forall_mem_singleton.mpr proper_createOne) hproper (by decide) hafter
  exact ⟨_, loop', _, statuses', rfl, hrun, hnone, herrs 1 _ rfl rfl⟩

end AeEventLoop

end Ae
