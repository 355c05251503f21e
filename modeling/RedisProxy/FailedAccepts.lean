import RedisProxy.EventBatches

/-!
# Accepts that fail

`accept_tcp_handler` does not look at what `anetTcpAccept` returns. If it returns `-1`, as
it does when the process has no descriptor left, that is the index at which
`aeCreateFileEvent` reads a mask, in front of the array.

It is the only way for the event loop to come to an access outside of the array, or
through a null pointer: in every run of batches there is one exactly if the run comes to an
accept that fails (`main_eq_undefined_iff`).
-/

namespace LogcabinRedisProxy

open Bytes SimpleResp Runs Ae

/-- **An accept fails**: the listening socket is readable, and `anetTcpAccept` returns
`-1`. -/
def AcceptFails (ipfd : ℤ) (f : Fired Returns) : Prop :=
  f.fd = ipfd ∧ f.revents.epollin = true ∧ f.env.clientFd = -1

namespace Server

/-- **An accept goes well or fails.** -/
def AcceptsOrFails (ipfd : ℤ) (s : Server) (f : Fired Returns) : Prop :=
  AcceptFails ipfd f ∨ s.AcceptsWell ipfd f

/-- **What comes of a run is possible**: the kernel reports what is watched, and accepts go
well or fail. -/
def Possible (ipfd : ℤ) (s : Server) (batch : List (Fired Returns)) : Prop :=
  s.loop.kernel.Reports batch
    ∧ Along (fun s f s' => s.processEvent f = .ok s') (fun s f => s.AcceptsOrFails ipfd f) s batch

end Server

namespace Follows

variable {ipfd : ℤ} {s : Server} {c : Clients} {f : Fired Returns}

/-- **An accept that fails** is undefined. -/
theorem processEvent_of_acceptFails (h : Follows ipfd s c) (hfails : AcceptFails ipfd f) :
    s.processEvent f = .error .undefined := by
  obtain ⟨hfd, hin, hclient⟩ := hfails
  have hentry : s.loop.registry.entries f.fd = some listenEntry := by
    rw [h.registry, hfd, Clients.registry_entries_self]
  have hsize : 0 ≤ s.loop.setsize := h.wellFormed.length ▸ Int.natCast_nonneg _
  exact (aeProcessEvent_of_readable hentry rfl rfl hin).1 _
    (Server.acceptTcpHandler_of_failed hclient hsize)

/-- **A batch is undefined exactly if it comes to an accept that fails**, and otherwise goes
on with its clients. -/
theorem processEvents_eq_undefined_iff (h : Follows ipfd s c) {batch : List (Fired Returns)}
    (honce : (batch.map Fired.fd).Nodup)
    (hfds : ∀ f ∈ batch, f.fd = ipfd ∨ c.loop.events f.fd ≠ none)
    (haccepts : Along (fun s f s' => s.processEvent f = .ok s')
      (fun s f => s.AcceptsOrFails ipfd f) s batch) :
    (s.processEvents batch = .error .undefined
        ↔ ComesTo Server.processEvent (AcceptFails ipfd) s batch)
      ∧ ∀ s', s.processEvents batch = .ok s' → ∃ c', Follows ipfd s' c' := by
  induction batch generalizing s c with
  | nil =>
    refine ⟨⟨fun hnil => ?_, fun hnil => absurd hnil not_comesTo_nil⟩, fun s' hs' => ?_⟩
    · cases hnil
    · obtain rfl := Except.ok.inj hs'
      exact ⟨c, h⟩
  | cons f batch ih =>
    obtain ⟨hnew, honce'⟩ := List.nodup_cons.mp honce
    rw [s.processEvents_cons, comesTo_cons_iff]
    by_cases hfails : AcceptFails ipfd f
    · rw [h.processEvent_of_acceptFails hfails]
      exact ⟨iff_of_true rfl (Or.inl hfails), fun s' hs' => by cases hs'⟩
    · have hagree := h.processEvent (hfds f List.mem_cons_self)
        (haccepts.1.resolve_left hfails)
      rw [or_iff_right hfails]
      cases hstep : s.processEvent f with
      | error stop =>
        rw [hstep] at hagree
        obtain ⟨⟨e, rfl⟩, -⟩ := hagree
        refine ⟨iff_of_false (fun hthrown => ?_) ?_, fun s' hs' => ?_⟩
        · cases hthrown
        · rintro ⟨s', hs', -⟩
          cases hs'
        · cases hs'
      | ok s₁ =>
        rw [hstep] at hagree
        obtain ⟨c₁, -, h₁⟩ := hagree
        obtain ⟨hiff, hgoes⟩ := ih h₁.1 honce' (h₁.registered hnew hfds) (haccepts.2 s₁ hstep)
        refine ⟨hiff.trans ⟨fun hcomes => ⟨s₁, rfl, hcomes⟩, ?_⟩, hgoes⟩
        rintro ⟨s', hs', hcomes⟩
        exact Except.ok.inj hs' ▸ hcomes

/-- **So are one batch after the other.** -/
theorem main_eq_undefined_iff (h : Follows ipfd s c) {batches : List (List (Fired Returns))}
    (hpossible : Along (fun s batch s' => s.processEvents batch = .ok s')
      (fun s batch => s.Possible ipfd batch) s batches) :
    s.main batches = .error .undefined
      ↔ ComesTo Server.processEvent (AcceptFails ipfd) s batches.flatten := by
  induction batches generalizing s c with
  | nil => exact iff_of_false (fun hnil => by cases hnil) not_comesTo_nil
  | cons batch batches ih =>
    obtain ⟨⟨hreports, haccepts⟩, hrest⟩ := hpossible
    obtain ⟨hiff, hgoes⟩ :=
      h.processEvents_eq_undefined_iff hreports.once (h.of_reports hreports) haccepts
    rw [s.main_cons, List.flatten_cons, comesTo_append_iff, ← hiff]
    show _ ↔ _ ∨ ∃ s', s.processEvents batch = .ok s' ∧ _
    cases hbatch : s.processEvents batch with
    | error stop =>
      refine ⟨fun hstop => Or.inl hstop, ?_⟩
      rintro (hstop | ⟨s', hs', -⟩)
      · exact hstop
      · cases hs'
    | ok s₁ =>
      obtain ⟨c₁, h₁⟩ := hgoes s₁ hbatch
      refine (ih h₁ (hrest s₁ hbatch)).trans ⟨fun hcomes => Or.inr ⟨s₁, rfl, hcomes⟩, ?_⟩
      rintro (hstop | ⟨s', hs', hcomes⟩)
      · cases hstop
      · exact Except.ok.inj hs' ▸ hcomes

end Follows

namespace Server

/-- **The event loop is memory safe exactly until an accept fails.** -/
theorem undefined_iff_of_batches {setsize : ℕ}
    {memory : ℕ → AeFileEvent FileProc (Option DecodeContext)} {ipfd : ℤ}
    {sessionCounter : Int32} (hpos : 0 ≤ ipfd) (hlt : ipfd < setsize) {s : Server}
    (hrun : run setsize memory ipfd sessionCounter = some s)
    {batches : List (List (Fired Returns))}
    (hpossible : Along (fun s batch s' => s.processEvents batch = .ok s')
      (fun s batch => s.Possible ipfd batch) s batches) :
    s.main batches = .error .undefined
      ↔ ComesTo processEvent (AcceptFails ipfd) s batches.flatten := by
  obtain ⟨s', hrun', h⟩ := exists_run hpos hlt memory sessionCounter
  obtain rfl := Option.some.inj (hrun.symm.trans hrun')
  exact h.main_eq_undefined_iff hpossible

/-- Descriptor 3 is readable, and `accept` fails. -/
def acceptNone : Fired Returns where
  fd := 3
  revents := ⟨true, false, false, false⟩
  env := ⟨-1, false, 0, none⟩

/-- A client comes, and then there is no descriptor left. -/
theorem undefined_iff_of_batches_acceptNone :
    ∃ s, run 8 cleared 3 0 = some s ∧ (s.main [[acceptFour], [acceptNone]] = .error .undefined
      ↔ ComesTo processEvent (AcceptFails 3) s [acceptFour, acceptNone]) := by
  refine ⟨_, rfl, @undefined_iff_of_batches 8 cleared 3 0 (by decide) (by decide) _ rfl
    [[acceptFour], [acceptNone]] ⟨⟨⟨by decide, ?_⟩, ?_, fun _ _ => trivial⟩, fun s₁ hs₁ => ?_⟩⟩
  · exact List.forall_mem_singleton.mpr nofun
  · exact Or.inr fun _ _ => ⟨by decide, rfl, rfl⟩
  · obtain rfl : _ = s₁ := Except.ok.inj (show Except.ok _ = Except.ok s₁ from hs₁)
    exact ⟨⟨⟨by decide, List.forall_mem_singleton.mpr nofun⟩, Or.inl ⟨rfl, rfl, rfl⟩,
      fun _ _ => trivial⟩, fun _ _ => trivial⟩

end Server

end LogcabinRedisProxy
