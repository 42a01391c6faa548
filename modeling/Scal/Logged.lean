/-
Runs that are logged.

Some conditions on an access speak about what happened before it: that a word has not been
written since this thread read it, say.  `Machine.logged` is the machine whose memory also
holds the log of all accesses, the last one first; no access depends on the log, and a
condition on the accesses of a run may read it.

* `Reach.unlogged`, `Reach.logged` — the runs are those of the machine itself.
-/
import Scal.Interleave

namespace Interleave

variable {Op Ret : Type} {M : Machine Op Ret}

/-- An access: its thread, and the memory and the thread's local state before it. -/
structure Access (M : Machine Op Ret) where
  thread : ℕ
  shared : M.Shared
  loc : M.Local

abbrev Machine.logged (M : Machine Op Ret) : Machine Op Ret where
  Shared := M.Shared × List (Access M)
  Local := M.Local
  Choice := M.Choice
  init := (M.init, [])
  admits := M.admits
  start := M.start
  step t ch σ l := (M.step t ch σ.1 l).map fun a => ((a.1, ⟨t, σ.1, l⟩ :: σ.2), a.2)

def Frame.unlog (f : Frame M.logged) : Frame M := ⟨f.id, f.op, f.loc⟩

def Moment.unlog (m : Moment M.logged) : Moment M := ⟨m.event, m.before.1, m.after.1⟩

/-- The configuration without the log. -/
def Config.unlog (c : Config M.logged) : Config M where
  shared := c.shared.1
  frames t := (c.frames t).map .unlog
  trace := c.trace.map .unlog

theorem Config.unlog_events (c : Config M.logged) : c.unlog.events = c.events := by
  rw [Config.events, Config.unlog, List.map_map]
  rfl

theorem Config.unlog_length (c : Config M.logged) : c.unlog.trace.length = c.trace.length :=
  List.length_map ..

theorem Config.unlog_record (c : Config M.logged) (t : ℕ) (e : Event Op Ret)
    (σ : M.Shared × List (Access M)) (f : Option (Frame M.logged)) :
    (c.record t e σ f).unlog = c.unlog.record t e σ.1 (f.map .unlog) := by
  have hframes : (fun u => (Function.update c.frames t f u).map Frame.unlog) =
      Function.update c.unlog.frames t (f.map .unlog) := by
    funext u
    by_cases hu : u = t
    · subst hu
      rw [Function.update_self, Function.update_self]
    · rw [Function.update_of_ne hu, Function.update_of_ne hu]
      rfl
  have htrace : (c.trace ++ [(⟨e, c.shared, σ⟩ : Moment M.logged)]).map Moment.unlog =
      c.unlog.trace ++ [⟨e, c.unlog.shared, σ.1⟩] := by
    rw [List.map_append]
    rfl
  show Config.mk _ _ _ = Config.mk _ _ _
  rw [← hframes, ← htrace]
  rfl

theorem Config.next_call_eq {c : Config M} {t : ℕ} {op : Op} (hf : c.frames t = none)
    (ha : M.admits c.events t op = true) :
    c.next (.call t op) = some (c.record t (.inv t op) c.shared
      (some ⟨c.trace.length, op, M.start t c.trace.length op⟩)) := by
  simp only [Config.next, hf, ha, if_true]

theorem Config.next_run_eq {c : Config M} {t : ℕ} {ch : M.Choice} {f : Frame M} {σ : M.Shared}
    {o : M.Local ⊕ Ret} (hf : c.frames t = some f)
    (hs : M.step t ch c.shared f.loc = some (σ, o)) :
    c.next (.run t ch) = some (c.record t (.ofStep t o) σ (f.resume o)) := by
  simp only [Config.next, hf, hs]

/-- A logged run is a run. -/
theorem Reach.unlogged {ok : ℕ → M.logged.Shared → M.Local → Bool} {c : Config M.logged}
    (hc : Reach M.logged ok c) : Reach M always c.unlog := by
  induction hc with
  | init => exact .init
  | @call c c' t op _ h ih =>
    obtain ⟨hf, ha, rfl⟩ := Config.next_call h
    have hfu : c.unlog.frames t = none := Option.map_eq_none_iff.mpr hf
    have hau : M.admits c.unlog.events t op = true := by
      rw [Config.unlog_events]
      exact ha
    have hn := Config.next_call_eq hfu hau
    rw [Config.unlog_length] at hn
    rw [Config.unlog_record]
    exact ih.call hn
  | @run c c' t ch f _ hf _ h ih =>
    obtain ⟨f', σ, o, hf', hs, rfl⟩ := Config.next_run h
    obtain rfl : f = f' := Option.some.inj (hf.symm.trans hf')
    obtain ⟨a, ha, he⟩ := Option.map_eq_some_iff.mp hs
    obtain ⟨rfl, rfl⟩ := Prod.mk.inj he
    have hfu : c.unlog.frames t = some f.unlog := Option.map_eq_some_iff.mpr ⟨f, hf, rfl⟩
    rw [Config.unlog_record]
    obtain ⟨σ', o⟩ := a
    have hs : M.step t ch c.unlog.shared f.unlog.loc = some (σ', o) := ha
    have hn := Config.next_run_eq hfu hs
    cases o with
    | inl l => exact ih.run hfu rfl hn
    | inr r => exact ih.run hfu rfl hn

/-- A run can be logged. -/
theorem Reach.logged {c : Config M} (hc : Reach M always c) :
    ∃ d : Config M.logged, Reach M.logged always d ∧ d.unlog = c := by
  induction hc with
  | init => exact ⟨_, .init, rfl⟩
  | @call c c' t op _ h ih =>
    obtain ⟨d, hd, rfl⟩ := ih
    obtain ⟨hf, ha, rfl⟩ := Config.next_call h
    have hfd : d.frames t = none := Option.map_eq_none_iff.mp hf
    rw [Config.unlog_events] at ha
    refine ⟨_, hd.call (Config.next_call_eq (M := M.logged) hfd ha), ?_⟩
    rw [Config.unlog_record, Config.unlog_length]
    rfl
  | @run c c' t ch f _ hf _ h ih =>
    obtain ⟨d, hd, rfl⟩ := ih
    obtain ⟨f', σ, o, hf', hs, rfl⟩ := Config.next_run h
    obtain rfl : f = f' := Option.some.inj (hf.symm.trans hf')
    obtain ⟨fd, hfd, rfl⟩ := Option.map_eq_some_iff.mp hf
    have hsd : M.logged.step t ch d.shared fd.loc =
        some ((σ, ⟨t, d.shared.1, fd.loc⟩ :: d.shared.2), o) :=
      Option.map_eq_some_iff.mpr ⟨_, hs, rfl⟩
    refine ⟨_, hd.run hfd rfl (Config.next_run_eq (M := M.logged) hfd hsd), ?_⟩
    rw [Config.unlog_record]
    cases o <;> rfl

end Interleave
