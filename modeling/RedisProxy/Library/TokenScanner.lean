import RedisProxy.Library.Traced

/-!
# Scanners that cut tokens off a growing buffer

A reader of a byte stream keeps a buffer: what arrives is appended to it,
complete tokens are cut off its front and handled one by one, and the rest
waits for more. Where a token ends may depend on the state the reader is in –
a line ends at its terminator, a payload after its announced length – and
handling a token changes the state.

`TokenScanner` is that reader in general: `cut` finds the first token of the
buffer in a state, `step` handles it. Two properties make it a reader of a
stream: what is left behind a token is shorter than the buffer, so a run
ends, and a token once found is found unchanged when more symbols stand
behind it (`cut_append`). From the second alone follows that the cutting of
the stream into reads is invisible (`feed_eq_run`): the same tokens are
handled in the same states, with the same events, exception and rest.

`Reads` is the same run told step by step, with the tokens handled and the
state each was handled in, which is what invariants and inversions go by.
-/

variable {σ α E X : Type}

/-- **A reader that cuts tokens off a buffer**, in the order of the stream,
each in the state the ones before it left. -/
structure TokenScanner (σ α E X : Type) where
  /-- The first token of the buffer in a state, and what follows it. -/
  cut : σ → List α → Option (List α × List α)
  /-- Handling one token. -/
  step : σ → List α → Traced E X σ
  /-- What follows a token is the end of the buffer. -/
  cut_suffix : ∀ {s : σ} {b t r : List α}, cut s b = some (t, r) → r <:+ b
  /-- A token takes something off the buffer. -/
  cut_length : ∀ {s : σ} {b t r : List α}, cut s b = some (t, r) → r.length < b.length
  /-- A token found stays the first one when more arrives. -/
  cut_append : ∀ {s : σ} {b t r : List α}, cut s b = some (t, r) →
    ∀ more, cut s (b ++ more) = some (t, r ++ more)

namespace TokenScanner

variable (S : TokenScanner σ α E X)

/-- **A run over a buffer**: token after token, until none is complete; it
ends with the state and the rest of the buffer. -/
def run (s : σ) (b : List α) : Traced E X (σ × List α) :=
  match _h : S.cut s b with
  | none => pure (s, b)
  | some (t, r) => S.step s t >>= fun s' => run s' r
termination_by b.length
decreasing_by exact S.cut_length _h

theorem run_of_none {s : σ} {b : List α} (h : S.cut s b = none) :
    S.run s b = pure (s, b) := by
  rw [run]
  split
  · rfl
  · rename_i h'
    rw [h] at h'
    cases h'

theorem run_of_some {s : σ} {b t r : List α} (h : S.cut s b = some (t, r)) :
    S.run s b = S.step s t >>= fun s' => S.run s' r := by
  rw [run]
  split
  · rename_i h'
    rw [h] at h'
    cases h'
  · rename_i h'
    rw [h] at h'
    cases h'
    rfl

/-- Equations for a token whose handling ends normally, and for one that
throws. -/
theorem run_step {s s' : σ} {b t r : List α} {ev : List E} (h : S.cut s b = some (t, r))
    (hs : S.step s t = ⟨ev, .ok s'⟩) :
    S.run s b = ⟨ev ++ (S.run s' r).events, (S.run s' r).outcome⟩ := by
  rw [S.run_of_some h, hs, Traced.ok_bind]

theorem run_throw {s : σ} {b t r : List α} {ev : List E} {x : X} (h : S.cut s b = some (t, r))
    (hs : S.step s t = ⟨ev, .error x⟩) : S.run s b = ⟨ev, .error x⟩ := by
  rw [S.run_of_some h, hs, Traced.error_bind]

/-- **A run over a longer buffer goes on where the run over its front
stopped.** -/
theorem run_append (s : σ) (b more : List α) :
    S.run s (b ++ more) = S.run s b >>= fun p => S.run p.1 (p.2 ++ more) := by
  induction s, b using run.induct S with
  | case1 s b h => rw [S.run_of_none h, pure_bind]
  | case2 s b t r h ih =>
    rw [S.run_of_some (S.cut_append h more), S.run_of_some h, bind_assoc]
    exact congrArg _ (funext ih)

/-- **A relabelling of the states that changes no cut and commutes with every
step commutes with the runs.** -/
theorem run_map (f : σ → σ) (hcut : ∀ s b, S.cut (f s) b = S.cut s b)
    (hstep : ∀ s t, S.step (f s) t = f <$> S.step s t) (s : σ) (b : List α) :
    S.run (f s) b = (fun p => (f p.1, p.2)) <$> S.run s b := by
  induction s, b using run.induct S with
  | case1 s b h => rw [S.run_of_none h, S.run_of_none ((hcut s b).trans h), map_pure]
  | case2 s b t r h ih =>
    rw [S.run_of_some h, S.run_of_some ((hcut s b).trans h), hstep, map_bind,
      ← bind_pure_comp, bind_assoc]
    refine congrArg _ (funext fun s' => ?_)
    rw [pure_bind, ih s']

/-- **The simulation rule**: states that are cut alike, and that every token keeps
so, have runs that are alike. -/
theorem run_alike {R : σ → σ → Prop} {g : E → E} (hcut : ∀ s s' b, R s s' → S.cut s' b = S.cut s b)
    (hstep : ∀ s s' t, R s s' → Traced.Alike g R (S.step s t) (S.step s' t)) {s s' : σ}
    (h : R s s') (b : List α) :
    Traced.Alike g (fun p p' => R p.1 p'.1 ∧ p'.2 = p.2) (S.run s b) (S.run s' b) := by
  induction s, b using run.induct S generalizing s' with
  | case1 s b hc =>
    rw [S.run_of_none hc, S.run_of_none ((hcut s s' b h).trans hc)]
    exact Traced.Alike.ok ⟨h, rfl⟩
  | case2 s b t r hc ih =>
    rw [S.run_of_some hc, S.run_of_some ((hcut s s' b h).trans hc)]
    exact (hstep s s' t h).bind ih

/-- Reading a stream chunk by chunk: each chunk is appended to what the runs
before it left, and a run follows. -/
def feed (s : σ) (b : List α) : List (List α) → Traced E X (σ × List α)
  | [] => pure (s, b)
  | c :: cs => S.run s (b ++ c) >>= fun p => feed p.1 p.2 cs

/-- What a run leaves has no complete token at its front. -/
theorem cut_of_run_eq_ok {s s' : σ} {b r : List α} {ev : List E}
    (h : S.run s b = ⟨ev, .ok (s', r)⟩) : S.cut s' r = none := by
  induction s, b using run.induct S generalizing ev with
  | case1 s b hc =>
    rw [S.run_of_none hc] at h
    have heq := congrArg Traced.outcome h
    simp only [Traced.outcome_pure, Except.ok.injEq, Prod.mk.injEq] at heq
    rw [← heq.1, ← heq.2]
    exact hc
  | case2 s b t q hc ih =>
    rw [S.run_of_some hc] at h
    obtain ⟨_, s₁, _, -, h₂, -⟩ := Traced.bind_eq_ok_iff.mp h
    exact ih s₁ h₂

/-- **The cutting into reads is invisible**: from a buffer without a complete
token, feeding the chunks one by one is one run over all of them. -/
theorem feed_eq_run {s : σ} {b : List α} (h : S.cut s b = none) (cs : List (List α)) :
    S.feed s b cs = S.run s (b ++ cs.flatten) := by
  induction cs generalizing s b with
  | nil => rw [feed, List.flatten_nil, List.append_nil, S.run_of_none h]
  | cons c cs ih =>
    rw [feed, List.flatten_cons, ← List.append_assoc, S.run_append s (b ++ c)]
    cases hrun : (S.run s (b ++ c)).outcome with
    | error e => rw [Traced.bind_of_error hrun, Traced.bind_of_error hrun]
    | ok p =>
      have heq : S.run s (b ++ c) = ⟨(S.run s (b ++ c)).events, .ok (p.1, p.2)⟩ :=
        Traced.ext rfl hrun
      rw [Traced.bind_of_ok hrun, Traced.bind_of_ok hrun, ih (S.cut_of_run_eq_ok heq)]

/-! ## Runs step by step -/

/-- **A reading**: tokens cut off the buffer and handled without an
exception, each listed with the state it was handled in. -/
inductive Reads : σ → List α → List (σ × List α) → List E → σ → List α → Prop where
  /-- Nothing read. -/
  | refl (s : σ) (b : List α) : Reads s b [] [] s b
  /-- One token, then the others. -/
  | step {s s₁ s₂ : σ} {b t r b₂ : List α} {ev evs : List E} {hist : List (σ × List α)}
      (hcut : S.cut s b = some (t, r)) (hstep : S.step s t = ⟨ev, .ok s₁⟩)
      (hrest : Reads s₁ r hist evs s₂ b₂) :
      Reads s b ((s, t) :: hist) (ev ++ evs) s₂ b₂

variable {S}

/-- One token read. -/
theorem Reads.single {s s₁ : σ} {b t r : List α} {ev : List E}
    (hcut : S.cut s b = some (t, r)) (hstep : S.step s t = ⟨ev, .ok s₁⟩) :
    S.Reads s b [(s, t)] ev s₁ r := by
  have := Reads.step hcut hstep (Reads.refl s₁ r)
  rwa [List.append_nil] at this

/-- Readings compose. -/
theorem Reads.trans {s s₁ s₂ : σ} {b b₁ b₂ : List α} {h₁ h₂ : List (σ × List α)}
    {e₁ e₂ : List E} (h : S.Reads s b h₁ e₁ s₁ b₁) (h' : S.Reads s₁ b₁ h₂ e₂ s₂ b₂) :
    S.Reads s b (h₁ ++ h₂) (e₁ ++ e₂) s₂ b₂ := by
  induction h with
  | refl s b => exact h'
  | step hcut hstep _ ih =>
    rw [List.append_assoc]
    exact Reads.step hcut hstep (ih h')

/-- **What a reading does, the run does first.** -/
theorem Reads.run_eq {s s' : σ} {b b' : List α} {hist : List (σ × List α)} {ev : List E}
    (h : S.Reads s b hist ev s' b') :
    S.run s b = ⟨ev ++ (S.run s' b').events, (S.run s' b').outcome⟩ := by
  induction h with
  | refl s b => rfl
  | step hcut hstep _ ih =>
    rw [S.run_step hcut hstep, ih]
    exact Traced.ext (List.append_assoc _ _ _).symm rfl

/-- Where the run ends normally, so it does behind a reading. -/
theorem Reads.exists_run_eq_ok {s s' : σ} {b b' : List α} {hist : List (σ × List α)}
    {ev evs : List E} {p : σ × List α} (h : S.Reads s b hist ev s' b')
    (hrun : S.run s b = ⟨evs, .ok p⟩) : ∃ ev', S.run s' b' = ⟨ev', .ok p⟩ := by
  have hout : (S.run s' b').outcome = .ok p :=
    congrArg Traced.outcome (h.run_eq.symm.trans hrun)
  exact ⟨_, Traced.ext rfl hout⟩

/-- A reading leaves the end of the buffer. -/
theorem Reads.suffix {s s' : σ} {b b' : List α} {hist : List (σ × List α)} {ev : List E}
    (h : S.Reads s b hist ev s' b') : b' <:+ b := by
  induction h with
  | refl s b => exact List.suffix_refl b
  | step hcut _ _ ih => exact ih.trans (S.cut_suffix hcut)

/-- **Two readings of one buffer are one**, of which the shorter is the
beginning. -/
theorem Reads.comparable {s s₁ s₂ : σ} {b b₁ b₂ : List α} {h₁ h₂ : List (σ × List α)}
    {e₁ e₂ : List E} (h : S.Reads s b h₁ e₁ s₁ b₁) (h' : S.Reads s b h₂ e₂ s₂ b₂) :
    (∃ h₃ e₃, h₂ = h₁ ++ h₃ ∧ e₂ = e₁ ++ e₃ ∧ S.Reads s₁ b₁ h₃ e₃ s₂ b₂)
      ∨ ∃ h₃ e₃, h₁ = h₂ ++ h₃ ∧ e₁ = e₂ ++ e₃ ∧ S.Reads s₂ b₂ h₃ e₃ s₁ b₁ := by
  induction h generalizing h₂ e₂ with
  | refl s b => exact Or.inl ⟨h₂, e₂, rfl, rfl, h'⟩
  | @step s sm s₁ b t r b₁ ev evs hist hcut hstep hrest ih =>
    cases h' with
    | refl _ _ => exact Or.inr ⟨_, _, rfl, rfl, Reads.step hcut hstep hrest⟩
    | @step _ sm' _ _ t' r' _ ev' evs' hist' hcut' hstep' hrest' =>
      obtain ⟨rfl, rfl⟩ := Prod.mk.inj (Option.some.inj (hcut.symm.trans hcut'))
      obtain ⟨rfl, heq⟩ := Traced.mk.inj (hstep.symm.trans hstep')
      obtain rfl := Except.ok.inj heq
      rcases ih hrest' with ⟨h₃, e₃, rfl, rfl, hr⟩ | ⟨h₃, e₃, rfl, rfl, hr⟩
      · exact Or.inl ⟨h₃, e₃, rfl, (List.append_assoc _ _ _).symm, hr⟩
      · exact Or.inr ⟨h₃, e₃, rfl, (List.append_assoc _ _ _).symm, hr⟩

/-- Two readings that leave the same rest are one. -/
theorem Reads.eq_of_rest {s s₁ s₂ : σ} {b b' : List α} {h₁ h₂ : List (σ × List α)}
    {e₁ e₂ : List E} (h : S.Reads s b h₁ e₁ s₁ b') (h' : S.Reads s b h₂ e₂ s₂ b') :
    h₁ = h₂ ∧ e₁ = e₂ ∧ s₁ = s₂ := by
  have hnone : ∀ {s s' : σ} {b : List α} {hist : List (σ × List α)} {ev : List E},
      S.Reads s b hist ev s' b → hist = [] ∧ ev = [] ∧ s = s' := by
    intro s s' b hist ev hr
    cases hr with
    | refl _ _ => exact ⟨rfl, rfl, rfl⟩
    | step hcut _ hrest =>
      exact absurd hrest.suffix.length_le (Nat.not_le_of_lt (S.cut_length hcut))
  rcases h.comparable h' with ⟨h₃, e₃, rfl, rfl, hr⟩ | ⟨h₃, e₃, rfl, rfl, hr⟩
  · obtain ⟨rfl, rfl, rfl⟩ := hnone hr
    exact ⟨(List.append_nil h₁).symm, (List.append_nil e₁).symm, rfl⟩
  · obtain ⟨rfl, rfl, rfl⟩ := hnone hr
    exact ⟨List.append_nil h₂, List.append_nil e₂, rfl⟩

/-- A reading is one of every longer buffer. -/
theorem Reads.append {s s' : σ} {b b' : List α} {hist : List (σ × List α)} {ev : List E}
    (h : S.Reads s b hist ev s' b') (more : List α) :
    S.Reads s (b ++ more) hist ev s' (b' ++ more) := by
  induction h with
  | refl s b => exact Reads.refl s (b ++ more)
  | step hcut hstep _ ih => exact Reads.step (S.cut_append hcut more) hstep ih

/-- **The last event of a reading** is made by a token, and no event behind
it. -/
theorem Reads.exists_last {s s' : σ} {b b' : List α} {hist : List (σ × List α)} {ev : List E}
    (h : S.Reads s b hist ev s' b') (hne : ev ≠ []) :
    ∃ h₁ e₁ s₁ b₁ t r e₂ s₂, S.Reads s b h₁ e₁ s₁ b₁ ∧ S.cut s₁ b₁ = some (t, r)
      ∧ S.step s₁ t = ⟨e₂, .ok s₂⟩ ∧ e₂ ≠ [] ∧ ev = e₁ ++ e₂ := by
  induction h with
  | refl s b => exact absurd rfl hne
  | @step s sm s' b t r b' ev evs hist hcut hstep _ ih =>
    by_cases hevs : evs = []
    · subst hevs
      rw [List.append_nil] at hne ⊢
      exact ⟨[], [], s, b, t, r, ev, sm, Reads.refl s b, hcut, hstep, hne, rfl⟩
    · obtain ⟨h₁, e₁, s₁, b₁, t₁, r₁, e₂, s₂, hr, hc, hs, hne₂, rfl⟩ := ih hevs
      exact ⟨(s, t) :: h₁, ev ++ e₁, s₁, b₁, t₁, r₁, e₂, s₂, Reads.step hcut hstep hr, hc, hs,
        hne₂, (List.append_assoc _ _ _).symm⟩

/-- **The invariant rule**: what one token preserves, a reading preserves. -/
theorem Reads.invariant {I : σ → Prop} {s s' : σ} {b b' : List α}
    {hist : List (σ × List α)} {ev : List E} (h : S.Reads s b hist ev s' b')
    (hI : ∀ s t ev s₁, I s → S.step s t = ⟨ev, .ok s₁⟩ → I s₁) (hs : I s) : I s' := by
  induction h with
  | refl s b => exact hs
  | step _ hstep _ ih => exact ih (hI _ _ _ _ hs hstep)

/-- **The invariant rule with the history**: what holds of the tokens read so
far, the events made and the state, and is kept by one token more, holds behind
every reading. -/
theorem Reads.accumulate {I : List (σ × List α) → List E → σ → Prop} {s s' : σ} {b b' : List α}
    {hist₀ hist : List (σ × List α)} {ev₀ ev : List E} (h : S.Reads s b hist ev s' b')
    (hI : ∀ hist ev s t ev' s', I hist ev s → S.step s t = ⟨ev', .ok s'⟩ →
      I (hist ++ [(s, t)]) (ev ++ ev') s')
    (hs : I hist₀ ev₀ s) : I (hist₀ ++ hist) (ev₀ ++ ev) s' := by
  induction h generalizing hist₀ ev₀ with
  | refl s b => simpa using hs
  | @step s s₁ s₂ b t r b₂ ev evs hist _ hstep _ ih =>
    have hnext := ih (hI hist₀ ev₀ s t ev s₁ hs hstep)
    rwa [List.append_assoc, List.append_assoc] at hnext

/-- **A run that ends normally is a reading of every complete token.** -/
theorem run_eq_ok_iff {s s' : σ} {b r : List α} {ev : List E} :
    S.run s b = ⟨ev, .ok (s', r)⟩
      ↔ (∃ hist, S.Reads s b hist ev s' r) ∧ S.cut s' r = none := by
  constructor
  · intro h
    refine ⟨?_, S.cut_of_run_eq_ok h⟩
    induction s, b using run.induct S generalizing ev with
    | case1 s b hc =>
      rw [S.run_of_none hc] at h
      obtain ⟨rfl, heq⟩ := Traced.mk.injEq .. ▸ h
      simp only [Except.ok.injEq, Prod.mk.injEq] at heq
      obtain ⟨rfl, rfl⟩ := heq
      exact ⟨[], Reads.refl s b⟩
    | case2 s b t q hc ih =>
      rw [S.run_of_some hc] at h
      obtain ⟨ev₁, s₁, ev₂, h₁, h₂, rfl⟩ := Traced.bind_eq_ok_iff.mp h
      obtain ⟨hist, hr⟩ := ih s₁ h₂
      exact ⟨(s, t) :: hist, Reads.step hc h₁ hr⟩
  · rintro ⟨⟨hist, h⟩, hc⟩
    rw [h.run_eq, S.run_of_none hc]
    exact Traced.ext (List.append_nil ev) rfl

/-- **A run that throws reads up to the token whose handling throws.** -/
theorem exists_reads_of_run_eq_error {s : σ} {b : List α} {ev : List E} {x : X}
    (h : S.run s b = ⟨ev, .error x⟩) :
    ∃ hist ev₁ s' b' t r ev₂, S.Reads s b hist ev₁ s' b' ∧ S.cut s' b' = some (t, r)
      ∧ S.step s' t = ⟨ev₂, .error x⟩ ∧ ev = ev₁ ++ ev₂ := by
  induction s, b using run.induct S generalizing ev with
  | case1 s b hc =>
    rw [S.run_of_none hc] at h
    cases congrArg Traced.outcome h
  | case2 s b t q hc ih =>
    cases hstep : S.step s t with
    | mk ev₁ out =>
      cases out with
      | error y =>
        rw [S.run_throw hc hstep] at h
        obtain ⟨rfl, heq⟩ := Traced.mk.injEq .. ▸ h
        cases heq
        exact ⟨[], [], s, b, t, q, ev₁, Reads.refl s b, hc, hstep, rfl⟩
      | ok s₁ =>
        rw [S.run_step hc hstep] at h
        obtain ⟨rfl, heq⟩ := Traced.mk.injEq .. ▸ h
        obtain ⟨hist, e₁, s', b', t', r', e₂, hr, hc', hs', he⟩ :=
          ih s₁ (Traced.ext rfl heq)
        exact ⟨(s, t) :: hist, ev₁ ++ e₁, s', b', t', r', e₂, Reads.step hc hstep hr,
          hc', hs', (congrArg (ev₁ ++ ·) he).trans (List.append_assoc _ _ _).symm⟩

/-- **What a run has done is a reading**, whether it ends normally or throws, if
what is thrown reports nothing. -/
theorem exists_reads_of_run {s : σ} {b : List α}
    (hthrow : ∀ s t ev x, S.step s t = ⟨ev, .error x⟩ → ev = []) :
    ∃ hist s' b', S.Reads s b hist (S.run s b).events s' b'
      ∧ ∀ p, (S.run s b).outcome = .ok p → p = (s', b') := by
  cases hrun : S.run s b with
  | mk ev out =>
    cases out with
    | ok p =>
      obtain ⟨⟨hist, hr⟩, -⟩ := run_eq_ok_iff.mp hrun
      exact ⟨hist, p.1, p.2, hr, fun q hq => (Except.ok.inj hq).symm⟩
    | error x =>
      obtain ⟨hist, ev₁, s', b', t, r, ev₂, hr, -, hstep, rfl⟩ :=
        exists_reads_of_run_eq_error hrun
      obtain rfl := hthrow s' t ev₂ x hstep
      exact ⟨hist, s', b', (List.append_nil ev₁).symm ▸ hr, fun q hq => nomatch hq⟩

end TokenScanner
