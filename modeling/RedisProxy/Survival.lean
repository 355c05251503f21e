import RedisProxy.EventTraces
import RedisProxy.HarmlessStreams
import RedisProxy.Quiescence

/-!
# What takes the proxy down

Nothing catches what the decoder throws, so one client ends the process for all of them.
That is a matter of the bytes this client has sent and of nothing else: in every run of the
proxy the event loop has come to an exception exactly if what has been read from some
client is not harmless (`doomed_iff_of_trace`). How the bytes were cut into reads, what the
workers and the cluster did meanwhile, and what the other clients have sent makes no
difference, as long as no client's buffer reaches `2^31` bytes. And it has been one client
only, since nobody is read from afterwards.
-/

namespace SimpleResp

open Bytes

/-- **A decoder returns from all its reads** exactly if what was read is harmless. -/
theorem exists_outcome_receiveAll_iff {sessionId : Int32} {readingStrSize : UInt64}
    {chunks : List Bytes} (hfit : BuffersFit (.new sessionId readingStrSize) chunks) :
    (∃ ctx, (receiveAll (.new sessionId readingStrSize) chunks).outcome = .ok ctx)
      ↔ Harmless chunks.flatten := by
  rw [← receiveAll_ok_iff hfit]
  constructor
  · rintro ⟨ctx, hok⟩
    exact ⟨_, ctx, Traced.ext rfl hok⟩
  · rintro ⟨calls, ctx, hread⟩
    exact ⟨ctx, congrArg Traced.outcome hread⟩

end SimpleResp

namespace LogcabinRedisProxy

open Bytes SimpleResp

namespace Proxy

/-- What has been read from a connection is harmless. -/
def HarmlessFrom (p : ℕ) (labels : List Label) : Prop :=
  Harmless (bytesFrom p labels).flatten

/-- **A client has taken the proxy down**, and no other has had a part in it. -/
structure DownBy (labels : List Label) (s : Proxy) (p : ℕ) : Prop where
  doomed : s.Doomed
  harms : ¬ HarmlessFrom p labels
  others : ∀ q, q ≠ p → HarmlessFrom q labels

variable {s s' : Proxy} {p : ℕ} {labels : List Label} {l : Label}

/-- While the event loop is alive, everything is harmless. -/
theorem Heard.harmlessFrom (h : Heard p labels s) (hshort : ShortReads p labels)
    (hlive : ¬ s.Doomed) : HarmlessFrom p labels := by
  by_cases hp : p < s.connections.length
  · obtain ⟨sessionId, readingStrSize, hdec⟩ := h.present hp
    refine (exists_outcome_receiveAll_iff (hshort sessionId readingStrSize)).mp ?_
    obtain ⟨conn, -, -, hbetween⟩ := hdec.connection
    cases hloop : s.loop with
    | waiting =>
      refine ⟨_, hbetween ⟨fun calls outcome hd => ?_, fun hd => ?_⟩⟩
      · cases hloop.symm.trans hd
      · cases hloop.symm.trans hd
    | decoding q calls outcome =>
      by_cases hq : q = p
      · subst hq
        rw [hdec.outcome calls outcome hloop]
        cases outcome with
        | ok decoder => exact ⟨decoder, rfl⟩
        | error e => exact absurd (Or.inr ⟨q, calls, e, hloop⟩) hlive
      · exact ⟨_, hbetween (BetweenReads.of_decoding hloop hq)⟩
    | terminated => exact absurd (Or.inl hloop) hlive
  · unfold HarmlessFrom
    rw [h.absent (not_lt.mp hp)]
    exact harmless_nil

/-- A decoder that will throw has read something that is not harmless. -/
theorem Heard.not_harmlessFrom (h : Heard p labels s) (hshort : ShortReads p labels)
    (hp : p < s.connections.length) {calls : List HandlerCall} {e : StdException}
    (hloop : s.loop = .decoding p calls (.error e)) : ¬ HarmlessFrom p labels := by
  intro hharmless
  obtain ⟨sessionId, readingStrSize, hdec⟩ := h.present hp
  obtain ⟨ctx, hok⟩ :=
    (exists_outcome_receiveAll_iff (hshort sessionId readingStrSize)).mpr hharmless
  rw [hdec.outcome calls _ hloop] at hok
  cases hok

/-- Nobody is read from behind an exception. -/
theorem bytesFrom_of_doomed (h : s.Doomed) (hs : Step s l s') (p : ℕ) :
    l.bytesFrom p = [] := by
  cases hs with
  | read hloop _ _ => exact absurd h (not_doomed_of_waiting hloop)
  | _ => rfl

/-- **Only a read takes the proxy down.** -/
theorem exists_read_of_doomed (hlive : ¬ s.Doomed) (hs : Step s l s') (hdown : s'.Doomed) :
    ∃ p command calls e, l = .read p command ∧ s'.loop = .decoding p calls (.error e)
      ∧ p < s'.connections.length := by
  cases hs with
  | accept hloop _ _ => exact absurd hdown (not_doomed_of_waiting hloop)
  | @read p conn command hloop hw hcommand =>
    rcases hdown with hd | ⟨q, calls, e, hd⟩
    · cases hd
    · obtain ⟨rfl, -, -⟩ := EventLoop.decoding.inj hd
      exact ⟨p, command, calls, e, rfl, hd, (List.getElem?_eq_some_iff.mp hw.1).1⟩
  | disconnect hloop _ => exact absurd hdown (not_doomed_of_waiting hloop)
  | decoded hloop => exact absurd hdown (not_doomed_of_waiting rfl)
  | @terminate p e hloop => exact absurd (Or.inr ⟨p, [], e, hloop⟩) hlive
  | @enqueue p conn call calls outcome hloop _ =>
    refine absurd ?_ hlive
    rcases hdown with hd | ⟨q, calls', e, hd⟩
    · cases hd
    · cases hd
      exact Or.inr ⟨p, _, e, hloop⟩
  | _ => exact absurd hdown hlive

/-- Short reads were short before. -/
theorem ShortReads.of_concat (h : ShortReads p (labels ++ [l])) : ShortReads p labels := by
  intro sessionId readingStrSize
  have hall := h sessionId readingStrSize
  rw [bytesFrom, List.flatMap_append] at hall
  exact hall.of_append

/-- **What has been read says who is to blame**: nobody while the event loop is alive, and
one client when it is not. -/
theorem blame_of_trace {condition : Proxy → Label → Prop} {sessionCounter : Int32}
    (ht : Trace condition (start sessionCounter) labels s)
    (hshort : ∀ p, ShortReads p labels) :
    ¬ s.Doomed ∧ (∀ p, HarmlessFrom p labels) ∨ ∃ p, DownBy labels s p := by
  have halive : ∀ {labels : List Label} {s : Proxy}, (∀ p, Heard p labels s) →
      (∀ p, ShortReads p labels) → ¬ s.Doomed →
      ¬ s.Doomed ∧ (∀ p, HarmlessFrom p labels) ∨ ∃ p, DownBy labels s p :=
    fun hheard hshort hlive =>
      Or.inl ⟨hlive, fun p => (hheard p).harmlessFrom (hshort p) hlive⟩
  refine (ht.invariant (I := fun labels s => (∀ p, Heard p labels s) ∧ ((∀ p, ShortReads p labels) →
    ¬ s.Doomed ∧ (∀ p, HarmlessFrom p labels) ∨ ∃ p, DownBy labels s p))
    ⟨heard_start sessionCounter, fun hshort =>
      halive (heard_start sessionCounter) hshort (not_doomed_of_waiting rfl)⟩
    fun labels s l s' ⟨hheard, hblame⟩ ⟨_, hs⟩ => ?_).2 hshort
  have hheard' := fun p => (hheard p).step hs
  refine ⟨hheard', fun hshort => ?_⟩
  have h := hblame fun p => (hshort p).of_concat
  have hsame : ∀ p, l.bytesFrom p = [] → HarmlessFrom p (labels ++ [l]) = HarmlessFrom p labels :=
    fun p hl => congrArg (fun chunks : List Bytes => Harmless chunks.flatten)
      (bytesFrom_of_nil hl)
  rcases h with ⟨hlive, hharmless⟩ | ⟨p, hdown⟩
  · by_cases hdoomed : s'.Doomed
    · obtain ⟨p, command, calls, e, rfl, hloop, hp⟩ := exists_read_of_doomed hlive hs hdoomed
      refine Or.inr ⟨p, hdoomed, (hheard' p).not_harmlessFrom (hshort p) hp hloop, fun q hq => ?_⟩
      rw [hsame q (if_neg hq.symm)]
      exact hharmless q
    · exact halive hheard' hshort hdoomed
  · refine Or.inr ⟨p, hdown.doomed.step hs, ?_, fun q hq => ?_⟩
    · rw [hsame p (bytesFrom_of_doomed hdown.doomed hs p)]
      exact hdown.harms
    · rw [hsame q (bytesFrom_of_doomed hdown.doomed hs q)]
      exact hdown.others q hq

/-- **The proxy goes down exactly if a client sends what is not harmless**, and then it was
this client alone. -/
theorem doomed_iff_of_trace {condition : Proxy → Label → Prop} {sessionCounter : Int32}
    (ht : Trace condition (start sessionCounter) labels s)
    (hshort : ∀ p, ShortReads p labels) :
    (s.Doomed ↔ ∃ p, ¬ HarmlessFrom p labels)
      ∧ ∀ p q, ¬ HarmlessFrom p labels → ¬ HarmlessFrom q labels → p = q := by
  rcases blame_of_trace ht hshort with ⟨hlive, hharmless⟩ | ⟨p, hdown⟩
  · exact ⟨⟨fun hdoomed => absurd hdoomed hlive, fun ⟨p, hp⟩ => absurd (hharmless p) hp⟩,
      fun p _ hp _ => absurd (hharmless p) hp⟩
  · have hself : ∀ q, ¬ HarmlessFrom q labels → q = p := fun q hq => by
      by_contra hne
      exact hq (hdown.others q hne)
    exact ⟨⟨fun _ => ⟨p, hdown.harms⟩, fun _ => hdown.doomed⟩,
      fun q r hq hr => (hself q hq).trans (hself r hr).symm⟩

/-- A second client has sent an array header without a number. -/
def takenDown : Proxy :=
  { ((start 0).acceptTcpHandler 5 0).acceptTcpHandler 7 0 with loop := .terminated }

theorem trace_takenDown :
    Trace (fun _ _ => True) (start 0)
      [.accept 5 0, .accept 7 0, .read 1 (ofString "*\r\n"), .decoded] takenDown := by
  have hreceive : receive (.new 2 0) (ofString "*\r\n") = ⟨[], .error .invalidArgument⟩ :=
    Traced.ext (by decide +kernel) (by decide +kernel)
  have hfirst : Trace (fun _ _ => True) (start 0) [.accept 5 0] _ :=
    Trace.step .refl trivial (Step.accept rfl (by decide) rfl)
  have haccept := hfirst.step (l := .accept 7 0) trivial (Step.accept rfl (by decide) rfl)
  have hread := haccept.step (l := .read 1 (ofString "*\r\n")) trivial
    (Step.read (c := ⟨7, true, .new 2 0⟩) rfl ⟨rfl, rfl, rfl⟩ (by decide +kernel))
  unfold readFromClient at hread
  rw [hreceive] at hread
  exact hread.step trivial (Step.terminate rfl)

/-- The first client has sent nothing, and is taken down as well. -/
theorem doomed_iff_of_trace_takenDown :
    takenDown.Doomed ↔ ∃ p, ¬ HarmlessFrom p
      [.accept 5 0, .accept 7 0, .read 1 (ofString "*\r\n"), .decoded] :=
  (doomed_iff_of_trace trace_takenDown
    (shortReads_of_one [.accept 5 0, .accept 7 0] _ (fun _ => ⟨rfl, rfl⟩) (by decide))).1

/-! ## What the proxy comes to -/

theorem survives_iff : s.Survives ↔ ¬ s.Doomed := by
  constructor
  · rintro h (hd | ⟨p, calls, e, hd⟩)
    · exact h.alive hd
    · exact h.returns p calls e hd
  · exact fun h => ⟨fun hd => h (Or.inl hd), fun p calls e hd => h (Or.inr ⟨p, calls, e, hd⟩)⟩

/-- **An exception that is to come does come**: only there the event loop stops. -/
theorem Sound.terminated_of_doomed (h : Sound s) (hdoomed : s.Doomed)
    (hstop : ∀ l s', s.ByItself l → ¬ Step s l s') : s.loop = .terminated := by
  rcases hdoomed with hd | ⟨p, calls, e, hd⟩
  · exact hd
  · cases calls with
    | nil => exact absurd (Step.terminate hd) (hstop .decoded _ trivial)
    | cons call calls =>
      have hconn := List.getElem?_eq_getElem (h.loop _ _ _ hd)
      exact absurd (Step.enqueue hd hconn) (hstop .enqueue _ trivial)

/-- **What has been read decides what the proxy comes to.** Left alone, it makes at most as
many steps as its stock says, in every schedule, and where it can make none it is at rest,
with everything done, exactly if all that was read is harmless, and has been left by an
exception exactly if something was not. -/
theorem fate_of_trace {condition : Proxy → Label → Prop} {sessionCounter : Int32}
    {labels' : List Label} (ht : Trace condition (start sessionCounter) labels s)
    (hshort : ∀ p, ShortReads p labels) (ht' : Trace ByItself s labels' s') :
    labels'.length ≤ s.stock ∧ ((∀ l s'', s'.ByItself l → ¬ Step s' l s'') →
      (s'.AtRest ↔ ∀ p, HarmlessFrom p labels)
        ∧ (s'.loop = .terminated ↔ ∃ p, ¬ HarmlessFrom p labels)) := by
  have hsound := (sound_start sessionCounter).runs ht.runs
  obtain ⟨hsound', hle⟩ := LabelledPath.length_le
    (fun s l s' (h : Sound s) (hs : s.ByItself l ∧ Step s l s') =>
      ⟨h.step hs.2, h.stock_lt hs.1 hs.2⟩) ht' hsound
  refine ⟨by omega, fun hstop => ?_⟩
  have hboth : Trace (fun _ _ => True) (start sessionCounter) (labels ++ labels') s' :=
    LabelledPath.append (ht.mono fun _ _ _ h => ⟨trivial, h.2⟩)
      (ht'.mono fun _ _ _ h => ⟨trivial, h.2⟩)
  have hsame : ∀ p, HarmlessFrom p (labels ++ labels') = HarmlessFrom p labels := fun p =>
    congrArg (fun chunks : List Bytes => Harmless chunks.flatten)
      (bytesFrom_of_byItself ht')
  have hshort' : ∀ p, ShortReads p (labels ++ labels') := by
    unfold ShortReads
    simp only [bytesFrom_of_byItself ht']
    exact hshort
  rcases blame_of_trace hboth hshort' with ⟨hlive, hharmless⟩ | ⟨p, hdown⟩
  · simp only [hsame] at hharmless
    have hrest := (hsound'.atRest_iff (survives_iff.mpr hlive)).mpr hstop
    exact ⟨⟨fun _ => hharmless, fun _ => hrest⟩,
      fun hd => absurd (Or.inl hd) hlive, fun ⟨p, hp⟩ => absurd (hharmless p) hp⟩
  · have hharms := hdown.harms
    rw [hsame] at hharms
    have hend := hsound'.terminated_of_doomed hdown.doomed hstop
    refine ⟨⟨fun hrest => ?_, fun hharmless => absurd (hharmless p) hharms⟩,
      fun _ => ⟨p, hharms⟩, fun _ => hend⟩
    cases hend.symm.trans hrest.loop

/-- A client has sent two requests, and all comes to rest. -/
theorem fate_of_trace_overtaking :
    insertedLate.AtRest ↔ ∀ p, HarmlessFrom p [.accept 5 0, .read 0 twoWritesText] := by
  have ht : Trace (Undisturbed 0) (start 0) [.accept 5 0, .read 0 twoWritesText]
      (overtaking 2) := trace_overtaking 0 (n := 2) (by decide)
  have halone : Trace ByItself (overtaking 2) ((List.range' 2 11).map overtakingLabel)
      insertedLate := trace_byItself_overtaking.mono fun _ _ _ h => ⟨h.1.1, h.2⟩
  have hsound := ((sound_start 0).runs ht.runs).runs halone.runs
  exact ((fate_of_trace ht
    (shortReads_of_one [.accept 5 0] [] (fun _ => ⟨rfl, rfl⟩) (by decide +kernel)) halone).2
    ((hsound.atRest_iff ⟨nofun, nofun⟩).mp atRest_insertedLate)).1

end Proxy

end LogcabinRedisProxy
