import Chip8.Program.Session
import Chip8.Proofs.Position
import Mathlib.Data.List.Induction

namespace Chip8.Session

namespace Step

def current (i : Nat) : Step → Nat
  | use j => j
  | query _ | fork => i

/-- What a step asks cursor `k`, if `i` is current. -/
def asked (k i : Nat) : Step → List Cursor.Query
  | query q => if i = k then [q] else []
  | fork | use _ => []

end Step

def currentAfter (i : Nat) (script : List Step) : Nat := script.foldl Step.current i

def forks (script : List Step) : Nat := script.count .fork

def asked (k : Nat) : Nat → List Step → List Cursor.Query
  | _, [] => []
  | i, step :: script => step.asked k i ++ asked k (step.current i) script

/-- The first cursor was asked what the script asked it. A cursor that was forked off was asked what
its parent was asked until the fork, and then what the script asked it. -/
inductive History : List Step → Nat → List Cursor.Query → Prop
  | first (script : List Step) : History script 0 (asked 0 0 script)
  | forked {before : List Step} {qs : List Cursor.Query}
      (parent : History before (currentAfter 0 before) qs) (later : List Step) :
      History (before ++ .fork :: later) (forks before + 1)
        (qs ++ asked (forks before + 1) (currentAfter 0 before) later)

/-- No step makes a cursor current that is not there by then, if there are `n` at first. -/
def Admissible (n : Nat) (script : List Step) : Prop :=
  ∀ before i later, script = before ++ .use i :: later → i < n + forks before

def after? (s : Session) (script : List Step) : Option Session :=
  script.foldlM (fun s step => (s.perform step).map (·.value.2)) s

theorem asked_append (k i : Nat) (before later : List Step) :
    asked k i (before ++ later) = asked k i before ++ asked k (currentAfter i before) later := by
  induction before generalizing i with
  | nil => rfl
  | cons step before ih => rw [List.cons_append, asked, ih, asked, List.append_assoc]; rfl

theorem asked_singleton (k i : Nat) (step : Step) : asked k i [step] = step.asked k i :=
  List.append_nil _

theorem currentAfter_append (i : Nat) (before later : List Step) :
    currentAfter i (before ++ later) = currentAfter (currentAfter i before) later :=
  List.foldl_append

theorem forks_append (before later : List Step) :
    forks (before ++ later) = forks before + forks later := List.count_append

theorem forks_cons (step : Step) (script : List Step) :
    forks (step :: script) = forks [step] + forks script := forks_append [step] script

theorem getElem?_current (s : Session) : s.cursors[s.current]? = some s.cursor :=
  List.getElem?_eq_getElem s.current_lt

/-- What a script has done to a session when it is over. -/
structure Plays (s : Session) (script : List Step) (t : Session) : Prop where
  current : t.current = currentAfter s.current script
  length : t.cursors.length = s.cursors.length + forks script
  cursor : ∀ k c, s.cursors[k]? = some c →
    t.cursors[k]? = some (Cursor.after (asked k s.current script) c)

theorem Plays.nil (s : Session) : s.Plays [] s := ⟨rfl, rfl, fun _ _ h => h⟩

theorem Plays.append {s t u : Session} {before later : List Step} (h : s.Plays before t)
    (h' : t.Plays later u) : s.Plays (before ++ later) u where
  current := by rw [h'.current, h.current, currentAfter_append]
  length := by rw [h'.length, h.length, forks_append, Nat.add_assoc]
  cursor k c hc := by
    rw [h'.cursor k _ (h.cursor k c hc), h.current, ← Cursor.after_append, ← asked_append]

theorem perform_use {s : Session} {i : Nat} {done : Logged (Outcome × Session)}
    (h : s.perform (.use i) = some done) :
    ∃ hi : i < s.cursors.length, done = ⟨(.index i, ⟨s.cursors, i, hi⟩), []⟩ := by
  rw [perform] at h
  split at h
  next hi => exact ⟨hi, (Option.some.inj h).symm⟩
  next => cases h

theorem plays_of_perform {s : Session} {step : Step} {done : Logged (Outcome × Session)}
    (h : s.perform step = some done) : s.Plays [step] done.value.2 := by
  cases step with
  | query q =>
      cases h
      refine ⟨rfl, List.length_set, ?_⟩
      intro k c hc
      rw [asked_singleton, Step.asked]
      by_cases hk : s.current = k
      · subst hk
        rw [getElem?_current] at hc
        cases hc
        rw [if_pos rfl, Cursor.after_cons]
        exact List.getElem?_set_self s.current_lt
      · rw [if_neg hk]
        exact (List.getElem?_set_ne hk).trans hc
  | fork =>
      cases h
      refine ⟨rfl, List.length_append, ?_⟩
      intro k c hc
      exact (List.getElem?_append_left (List.getElem?_eq_some_iff.mp hc).1).trans hc
  | use i =>
      obtain ⟨-, rfl⟩ := perform_use h
      exact ⟨rfl, rfl, fun _ _ hc => hc⟩

theorem after?_append (s : Session) (before later : List Step) :
    s.after? (before ++ later) = s.after? before >>= fun t => t.after? later :=
  List.foldlM_append

theorem after?_cons (s : Session) (step : Step) (script : List Step) :
    s.after? (step :: script) = s.perform step >>= fun done => done.value.2.after? script := by
  rw [after?, List.foldlM_cons]
  cases s.perform step <;> rfl

theorem plays_of_after? {s t : Session} {script : List Step} (h : s.after? script = some t) :
    s.Plays script t := by
  induction script generalizing s with
  | nil => cases h; exact .nil _
  | cons step script ih =>
      rw [after?_cons] at h
      obtain ⟨done, hd, ht⟩ := Option.bind_eq_some_iff.mp h
      exact (plays_of_perform hd).append (ih ht)

theorem isSome_perform_iff (s : Session) (step : Step) :
    (s.perform step).isSome ↔ ∀ i, step = .use i → i < s.cursors.length := by
  cases step with
  | query q => simp [perform]
  | fork => simp [perform]
  | use i =>
      rw [perform]
      split
      next h => simp [h]
      next h => simp [h]

theorem admissible_cons {n : Nat} {step : Step} {script : List Step} :
    Admissible n (step :: script) ↔
      (∀ i, step = .use i → i < n) ∧ Admissible (n + forks [step]) script := by
  constructor
  · intro h
    constructor
    · rintro i rfl
      exact h [] i script rfl
    · rintro before i later rfl
      have hi := h (step :: before) i later rfl
      rwa [forks_cons, ← Nat.add_assoc] at hi
  · rintro ⟨hstep, hscript⟩ before i later he
    cases before with
    | nil =>
        obtain ⟨rfl, rfl⟩ := List.cons.inj he
        exact hstep i rfl
    | cons first before =>
        obtain ⟨rfl, rfl⟩ := List.cons.inj he
        rw [forks_cons, ← Nat.add_assoc]
        exact hscript before i later rfl

theorem isSome_after?_iff (s : Session) (script : List Step) :
    (s.after? script).isSome ↔ Admissible s.cursors.length script := by
  induction script generalizing s with
  | nil =>
      refine ⟨fun _ before i later h => ?_, fun _ => rfl⟩
      exact absurd h.symm (List.append_ne_nil_of_right_ne_nil _ (List.cons_ne_nil _ _))
  | cons step script ih =>
      rw [after?_cons, admissible_cons, ← isSome_perform_iff]
      cases hd : s.perform step with
      | none => exact ⟨fun h => absurd h Bool.false_ne_true, fun h => h.1⟩
      | some done =>
          rw [Option.bind_eq_bind, Option.bind_some, ih, (plays_of_perform hd).length]
          exact ⟨fun h => ⟨rfl, h⟩, fun h => h.2⟩

theorem isSome_run (s : Session) (script : List Step) :
    (s.run script).isSome = (s.after? script).isSome := by
  induction script generalizing s with
  | nil => rfl
  | cons step script ih =>
      rw [run, after?_cons]
      cases s.perform step with
      | none => rfl
      | some done =>
          refine Eq.trans ?_ (ih done.value.2)
          change Option.isSome (Option.bind (run done.value.2 script) _) = _
          cases run done.value.2 script <;> rfl

theorem length_run {s : Session} {script : List Step} {outcomes : List (Logged Outcome)}
    (h : s.run script = some outcomes) : outcomes.length = script.length := by
  induction script generalizing s outcomes with
  | nil => cases h; rfl
  | cons step script ih =>
      rw [run] at h
      obtain ⟨done, -, h⟩ := Option.bind_eq_some_iff.mp h
      obtain ⟨later, hl, h⟩ := Option.bind_eq_some_iff.mp h
      cases h
      rw [List.length_cons, List.length_cons, ih hl]

theorem run_eq_some {s : Session} {before later : List Step} {step : Step}
    {outcomes : List (Logged Outcome)} (h : s.run (before ++ step :: later) = some outcomes) :
    ∃ t done, s.after? before = some t ∧ t.perform step = some done ∧
      outcomes[before.length]? = some ⟨done.value.1, done.log⟩ := by
  induction before generalizing s outcomes with
  | nil =>
      rw [List.nil_append, run] at h
      obtain ⟨done, hd, h⟩ := Option.bind_eq_some_iff.mp h
      obtain ⟨rest, -, h⟩ := Option.bind_eq_some_iff.mp h
      cases h
      exact ⟨s, done, rfl, hd, rfl⟩
  | cons first before ih =>
      rw [List.cons_append, run] at h
      obtain ⟨done, hd, h⟩ := Option.bind_eq_some_iff.mp h
      obtain ⟨rest, hr, h⟩ := Option.bind_eq_some_iff.mp h
      cases h
      obtain ⟨t, done', ht, hd', ho⟩ := ih hr
      refine ⟨t, done', ?_, hd', ho⟩
      rw [after?_cons, hd]
      exact ht

namespace History

variable {script : List Step} {k : Nat} {qs : List Cursor.Query}

theorem cases_eq (h : History script k qs) : (k = 0 ∧ qs = asked 0 0 script) ∨
    ∃ before later ps, script = before ++ .fork :: later ∧ k = forks before + 1 ∧
      History before (currentAfter 0 before) ps ∧
      qs = ps ++ asked (forks before + 1) (currentAfter 0 before) later := by
  cases h with
  | first => exact .inl ⟨rfl, rfl⟩
  | forked parent later => exact .inr ⟨_, later, _, rfl, rfl, parent, rfl⟩

theorem append (h : History script k qs) (later : List Step) :
    History (script ++ later) k (qs ++ asked k (currentAfter 0 script) later) := by
  cases h with
  | first =>
      rw [← asked_append]
      exact .first _
  | @forked before ps parent after =>
      have hc : currentAfter 0 (before ++ .fork :: after) =
          currentAfter (currentAfter 0 before) after := currentAfter_append _ _ _
      rw [List.append_assoc, List.append_assoc, hc, ← asked_append]
      exact .forked parent (after ++ later)

theorem fork_unique {before before' later later' : List Step}
    (h : before ++ .fork :: later = before' ++ .fork :: later')
    (hf : forks before = forks before') :
    before = before' ∧ later = later' := by
  induction before generalizing before' with
  | nil =>
      cases before' with
      | nil => exact ⟨rfl, (List.cons.inj h).2⟩
      | cons step before' =>
          obtain ⟨rfl, -⟩ := List.cons.inj h
          exact absurd hf (by simp [forks])
  | cons step before ih =>
      cases before' with
      | nil =>
          obtain ⟨rfl, -⟩ := List.cons.inj h
          exact absurd hf (by simp [forks])
      | cons step' before' =>
          obtain ⟨rfl, ht⟩ := List.cons.inj h
          rw [forks_cons, forks_cons step before', Nat.add_left_cancel_iff] at hf
          obtain ⟨rfl, rfl⟩ := ih ht hf
          exact ⟨rfl, rfl⟩

theorem unique {ps : List Cursor.Query} (h : History script k qs) (h' : History script k ps) :
    qs = ps := by
  induction h generalizing ps with
  | first =>
      rcases cases_eq h' with ⟨-, rfl⟩ | ⟨before, later, rs, -, hk, -⟩
      · rfl
      · cases hk
  | @forked before qs parent later ih =>
      rcases cases_eq h' with ⟨hk, -⟩ | ⟨before', later', rs, hs, hk, hp, rfl⟩
      · cases hk
      · obtain ⟨rfl, rfl⟩ := fork_unique hs (Nat.succ.inj hk)
        rw [ih hp]

end History

theorem exists_history {bytes : List UInt8} {script : List Step} {t : Session}
    (h : (start bytes).value.after? script = some t) :
    ∀ k < t.cursors.length, ∃ qs, History script k qs := by
  induction script using List.reverseRecOn generalizing t with
  | nil =>
      cases h
      intro k hk
      obtain rfl : k = 0 := Nat.lt_one_iff.mp hk
      exact ⟨_, .first []⟩
  | append_singleton script step ih =>
      rw [after?_append] at h
      obtain ⟨s, hs, h⟩ := Option.bind_eq_some_iff.mp h
      have hp := plays_of_after? h
      have hs' := plays_of_after? hs
      intro k hk
      rw [hp.length] at hk
      by_cases hks : k < s.cursors.length
      · obtain ⟨qs, hq⟩ := ih hs k hks
        exact ⟨_, hq.append [step]⟩
      · -- only a fork adds a cursor, and what it copies is the current one
        cases step with
        | query q | use i => exact absurd hk hks
        | fork =>
            obtain ⟨qs, hq⟩ := ih hs s.current s.current_lt
            have hl : s.cursors.length = 1 + forks script := hs'.length
            have hc : s.current = currentAfter 0 script := hs'.current
            have hf : forks [Step.fork] = 1 := rfl
            obtain rfl : k = forks script + 1 := by omega
            rw [hc] at hq
            exact ⟨_, .forked hq []⟩

theorem History.getElem?_cursors {bytes : List UInt8} {script : List Step} {k : Nat}
    {qs : List Cursor.Query} (h : History script k qs) {t : Session}
    (ht : (start bytes).value.after? script = some t) :
    t.cursors[k]? = some (Cursor.after qs (Cursor.start bytes).value) := by
  induction h generalizing t with
  | first script => exact (plays_of_after? ht).cursor 0 _ rfl
  | @forked before qs parent later ih =>
      rw [after?_append] at ht
      obtain ⟨s, hs, ht⟩ := Option.bind_eq_some_iff.mp ht
      have hp := plays_of_after? hs
      have hl : s.cursors.length = forks before + 1 := hp.length.trans (Nat.add_comm _ _)
      have hcur : s.current = currentAfter 0 before := hp.current
      have hc : s.cursor = Cursor.after qs (Cursor.start bytes).value := by
        have hi := ih hs
        rw [← hcur, getElem?_current] at hi
        exact Option.some.inj hi
      have hnew : (s.cursors ++ [s.cursor])[forks before + 1]? = some s.cursor := by
        rw [← hl, List.getElem?_concat_length]
      rw [after?_cons] at ht
      obtain ⟨done, hd, ht⟩ := Option.bind_eq_some_iff.mp ht
      cases hd
      rw [Cursor.after_append, ← hc, ← hcur]
      exact (plays_of_after? ht).cursor _ _ hnew

/-- Each cursor of a session is a fresh one that was asked its history, and has one history. -/
structure Replays (fresh : Cursor) (script : List Step) (s : Session) : Prop where
  current : s.current = currentAfter 0 script
  length : s.cursors.length = forks script + 1
  history : ∀ k < s.cursors.length, ∃! qs, History script k qs
  cursor : ∀ k qs, History script k qs → s.cursors[k]? = some (Cursor.after qs fresh)

theorem replays_of_after? {bytes : List UInt8} {script : List Step} {s : Session}
    (h : (start bytes).value.after? script = some s) :
    s.Replays (Cursor.start bytes).value script where
  current := (plays_of_after? h).current
  length := (plays_of_after? h).length.trans (Nat.add_comm _ _)
  history k hk := by
    obtain ⟨qs, hq⟩ := exists_history h k hk
    exact ⟨qs, hq, fun ps hp => hp.unique hq⟩
  cursor _ _ hq := hq.getElem?_cursors h

theorem Plays.getElem?_of_ne {s t : Session} {step : Step} (h : s.Plays [step] t) {k : Nat}
    (hk : k < s.cursors.length) (hne : k ≠ s.current) : t.cursors[k]? = s.cursors[k]? := by
  have ha : asked k s.current [step] = [] := by
    rw [asked_singleton]
    cases step with
    | query q => exact if_neg hne.symm
    | fork | use i => rfl
  rw [List.getElem?_eq_getElem hk, h.cursor k _ (List.getElem?_eq_getElem hk), ha]
  rfl

/-- Whatever a script asks of the cursors of its session, a query gets and sends what it does where
nothing but the history of its cursor was asked of a fresh one. Forks and uses send nothing, and no
step touches a cursor that is not current. -/
theorem run_by_history (bytes : List UInt8) (script : List Step) :
    let fresh := (Cursor.start bytes).value
    let opening := (start bytes).value
    ((opening.run script).isSome ↔ Admissible 1 script) ∧
    ∀ outcomes, opening.run script = some outcomes → outcomes.length = script.length ∧
      ∀ before step later, script = before ++ step :: later → ∃ s t outcome,
        opening.after? before = some s ∧
        s.perform step = some ⟨(outcome.value, t), outcome.log⟩ ∧
        outcomes[before.length]? = some outcome ∧
        s.Replays fresh before ∧ t.Replays fresh (before ++ [step]) ∧
        (∀ k < s.cursors.length, k ≠ s.current → t.cursors[k]? = s.cursors[k]?) ∧
        match step with
        | .query q => ∀ qs, History before s.current qs →
            outcome = (fun r => .reply r.1) <$> (Cursor.ask q).run (Cursor.after qs fresh)
        | .fork => outcome = ⟨.index s.cursors.length, []⟩ ∧ t.cursors = s.cursors ++ [s.cursor]
        | .use i => outcome = ⟨.index i, []⟩ ∧ t.cursors = s.cursors := by
  intro fresh opening
  refine ⟨?_, ?_⟩
  · rw [isSome_run]
    exact isSome_after?_iff opening script
  · intro outcomes h
    refine ⟨length_run h, ?_⟩
    rintro before step later rfl
    obtain ⟨s, done, hs, hd, ho⟩ := run_eq_some h
    have ht : opening.after? (before ++ [step]) = some done.value.2 := by
      rw [after?_append, hs, Option.bind_eq_bind, Option.bind_some, after?_cons, hd]
      rfl
    have hr : s.Replays fresh before := replays_of_after? hs
    refine ⟨s, done.value.2, ⟨done.value.1, done.log⟩, hs, hd, ho, hr, replays_of_after? ht,
      fun k hk hne => (plays_of_perform hd).getElem?_of_ne hk hne, ?_⟩
    cases step with
    | query q =>
        intro qs hq
        have hc : s.cursor = Cursor.after qs fresh :=
          Option.some.inj ((getElem?_current s).symm.trans (hr.cursor _ _ hq))
        cases hd
        rw [← hc]
        exact congrArg (Logged.mk _) (List.append_nil _)
    | fork =>
        cases hd
        exact ⟨rfl, rfl⟩
    | use i =>
        obtain ⟨-, rfl⟩ := perform_use hd
        exact ⟨rfl, rfl⟩

end Chip8.Session
