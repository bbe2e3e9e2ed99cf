import MiniC.Proofs.Run.Isolation

/-!
# Output that does not fit

A sink with a capacity cuts the output and changes nothing else (`Program.run_limited`): as long as
the bytes fit, a run does what it does with a sink that takes any number, and at the first byte too
many it fails. What it has written then is the beginning of what it would have written.

Both sinks are followed through one execution. Either the second has taken everything so far, or the
execution over it has failed and the first has more than fits.
-/

namespace MiniC

namespace Sink

variable {sink other : Sink} {text : String} {full : Refusal} {n : Nat}

structure Open (sink : Sink) : Prop where
  answer : sink.answer = fun _ _ => .taken
  total_eq : total sink.given = sink.written.size

def cut (sink : Sink) (n : Nat) (full : Refusal) : Sink :=
  { sink with answer := answerUpTo n full }

def Later (sink other : Sink) : Prop :=
  other.Open ∧ ∃ more, other.written = sink.written ++ more

theorem Later.refl (h : sink.Open) : sink.Later sink :=
  ⟨h, .empty, ByteArray.append_empty.symm⟩

theorem Later.trans {last : Sink} (h : sink.Later other) (k : other.Later last) :
    sink.Later last := by
  obtain ⟨-, more, hother⟩ := h
  obtain ⟨hlast, rest, hwritten⟩ := k
  exact ⟨hlast, more ++ rest, by rw [hwritten, hother, ByteArray.append_assoc]⟩

theorem Later.size_le (h : sink.Later other) : sink.written.size ≤ other.written.size := by
  obtain ⟨-, more, hother⟩ := h
  rw [hother, ByteArray.size_append]
  exact Nat.le_add_right _ _

theorem extract_of_le {a : ByteArray} (h : a.size ≤ n) : a.extract 0 n = a := by
  ext1
  simp [ByteArray.data_extract, show a = .empty ∨ a.size ≤ n from .inr h]

theorem extract_append_of_le {a b : ByteArray} (h : n ≤ a.size) :
    (a ++ b).extract 0 n = a.extract 0 n := by
  have hempty : (b.extract (0 - a.size) (n - a.size)).size = 0 := by
    rw [ByteArray.size_extract]
    omega
  rw [ByteArray.extract_append, ByteArray.size_eq_zero_iff.1 hempty, ByteArray.append_empty]

theorem Later.extract_eq (h : sink.Later other) (hn : n ≤ sink.written.size) :
    other.written.extract 0 n = sink.written.extract 0 n := by
  obtain ⟨-, more, hother⟩ := h
  rw [hother, extract_append_of_le hn]

theorem Open.write (h : sink.Open) (text : String) :
    sink.write text = (sink.take text text.toUTF8, none) := by
  simp only [Sink.write, h.answer]

theorem Open.later (h : sink.Open) (text : String) :
    sink.Later (sink.take text text.toUTF8) := by
  refine ⟨⟨h.answer, ?_⟩, text.toUTF8, rfl⟩
  have hgiven : total (text :: sink.given) = text.utf8ByteSize + total sink.given := rfl
  simp [take, hgiven, h.total_eq, Nat.add_comm]

theorem Open.write_cut_of_le (h : sink.Open) (hfits : sink.written.size + text.utf8ByteSize ≤ n) :
    (sink.cut n full).write text = ((sink.take text text.toUTF8).cut n full, none) := by
  have hroom : text.utf8ByteSize ≤ n - sink.written.size := by omega
  simp only [Sink.write, cut, answerUpTo, h.total_eq, if_pos hroom]
  rfl

/-- Of a text that does not fit, the bytes that do are taken. -/
theorem Open.write_cut_of_lt (h : sink.Open) (hsize : sink.written.size ≤ n)
    (hover : n < sink.written.size + text.utf8ByteSize) :
    ∃ rest, (sink.cut n full).write text = (rest, some full) ∧
      rest.written = (sink.written ++ text.toUTF8).extract 0 n := by
  have hroom : ¬text.utf8ByteSize ≤ n - sink.written.size := by omega
  refine ⟨(sink.take text (text.toUTF8.extract 0 (n - sink.written.size))).cut n full, ?_, ?_⟩
  · simp only [Sink.write, cut, answerUpTo, h.total_eq, if_neg hroom]
    rfl
  · rw [ByteArray.extract_append, extract_of_le hsize, Nat.zero_sub]
    rfl

end Sink

def State.Within (n : Nat) (full : Refusal) (s s' : State) : Prop :=
  s.sink.Open ∧ s.sink.written.size ≤ n ∧ s' = { s with sink := s.sink.cut n full }

namespace Outcome

variable {o : Outcome α} {n : Nat} {full : Refusal} {text : ByteArray}

/-- If the execution has ended, then with more than `n` bytes written, and these are the first. -/
def Exceeds (o : Outcome α) (n : Nat) (text : ByteArray) : Prop :=
  ∀ t, o.final? = some t → n < t.sink.written.size ∧ t.sink.written.extract 0 n = text

/-- The second outcome is the first with room for `n` bytes: the same, or the fault of the sink
after the first `n` bytes of more. -/
def CutAt (n : Nat) (full : Refusal) (o o' : Outcome α) : Prop :=
  o.Alike (State.Within n full) o' ∨
    ∃ t', o' = .failed (.output full) t' ∧ o.Exceeds n t'.sink.written

theorem CutAt.over {t' : State} (h : o.Exceeds n t'.sink.written) :
    o.CutAt n full (.failed (.output full) t') :=
  .inr ⟨t', rfl, h⟩

end Outcome

namespace Exec

variable {m m' : Exec α} {s t : State} {n : Nat} {full : Refusal} {text : ByteArray}

def Appends (m : Exec α) : Prop :=
  ∀ s : State, s.sink.Open →
    m.Ends s (fun _ t => s.sink.Later t.sink) fun _ t => s.sink.Later t.sink

theorem Appends.of_keeps
    (h : ∀ s, m.Ends s (fun _ t => t.sink = s.sink) fun _ t => t.sink = s.sink) : m.Appends := by
  refine fun s hs => (h s).mono ?_ ?_
  all_goals
    rintro _ t ht
    rw [ht]
    exact .refl hs

protected theorem Appends.bind {second : α → Exec β} (h : m.Appends)
    (hsecond : ∀ a, (second a).Appends) : (m >>= second).Appends := by
  intro s hs
  refine (h s hs).bind fun a t hst => (hsecond a t hst.1).mono ?_ ?_
  · exact fun _ _ htu => hst.trans htu
  · exact fun _ _ htu => hst.trans htu

theorem Appends.bracket (h : m.Appends) (before after : Environment → Environment) :
    (m.bracket before after).Appends :=
  fun s hs => .bracket (h { s with env := before s.env } hs)

theorem Appends.final (h : m.Appends) (hs : s.sink.Open) (ht : (m s).final? = some t) :
    s.sink.Later t.sink := by
  have hends := h s hs
  unfold Ends at hends
  cases hm : m s <;> rw [hm] at hends ht <;> cases ht <;> exact hends

/-- What is added later does not change the bytes that were too many. -/
theorem exceeds_bind {second : α → Exec β} (h : (m s).Exceeds n text) (hs : s.sink.Open)
    (hm : m.Appends) (hsecond : ∀ a, (second a).Appends) :
    ((m >>= second) s).Exceeds n text := by
  intro u hu
  cases hms : m s with
  | done a t =>
    obtain ⟨hsize, htext⟩ := h t (by rw [hms]; rfl)
    have hst : s.sink.Later t.sink := hm.final hs (by rw [hms]; rfl)
    rw [bind_done hms] at hu
    have htu := (hsecond a).final hst.1 hu
    exact ⟨Nat.lt_of_lt_of_le hsize htu.size_le, by rw [htu.extract_eq (Nat.le_of_lt hsize), htext]⟩
  | failed fault t =>
    rw [bind_failed hms] at hu
    exact h u (by rw [hms]; exact hu)
  | unfinished =>
    rw [bind_unfinished hms] at hu
    cases hu

theorem exceeds_bracket {before after : Environment → Environment}
    (h : (m { s with env := before s.env }).Exceeds n text) :
    (m.bracket before after s).Exceeds n text := by
  intro u hu
  unfold Exec.bracket at hu
  cases hm : m { s with env := before s.env } with
  | done a t =>
    rw [hm] at hu
    cases hu
    exact h t (by rw [hm]; rfl)
  | failed fault t =>
    rw [hm] at hu
    cases hu
    exact h t (by rw [hm]; rfl)
  | unfinished =>
    rw [hm] at hu
    cases hu

structure Cuts (n : Nat) (full : Refusal) (m m' : Exec α) : Prop where
  appends : m.Appends
  cutAt : ∀ s s', State.Within n full s s' → (m s).CutAt n full (m' s')

namespace Cuts

theorem of_alike (hm : m.Appends)
    (h : ∀ s s', State.Within n full s s' → (m s).Alike (State.Within n full) (m' s')) :
    m.Cuts n full m' :=
  ⟨hm, fun s s' hs => .inl (h s s' hs)⟩

protected theorem bind {second second' : α → Exec β} (h : m.Cuts n full m')
    (hsecond : ∀ a, (second a).Cuts n full (second' a)) :
    (m >>= second).Cuts n full (m' >>= second') := by
  refine ⟨h.appends.bind fun a => (hsecond a).appends, fun s s' hs => ?_⟩
  rcases h.cutAt s s' hs with halike | ⟨t', hm', hover⟩
  · cases hm : m s <;> cases hm' : m' s' <;> rw [hm, hm'] at halike <;> cases halike
    next a t t' ht =>
      rw [bind_done hm, bind_done hm']
      exact (hsecond a).cutAt t t' ht
    next fault t t' ht =>
      rw [bind_failed hm, bind_failed hm']
      exact .inl (.failed ht)
    next =>
      rw [bind_unfinished hm, bind_unfinished hm']
      exact .inl .unfinished
  · rw [bind_failed hm']
    exact .over (exceeds_bind hover hs.1 h.appends fun a => (hsecond a).appends)

theorem lookup (name : String) : (Exec.lookup name).Cuts n full (Exec.lookup name) := by
  refine .of_alike (.of_keeps fun s => ?_) ?_
  · unfold Ends Exec.lookup
    cases s.env.get? name <;> rfl
  · rintro s _ ⟨hs, hsize, rfl⟩
    simp only [Exec.lookup]
    cases s.env.get? name with
    | none => exact .failed ⟨hs, hsize, rfl⟩
    | some v => exact .done ⟨hs, hsize, rfl⟩

theorem modifyEnv (change : Environment → Environment) :
    (Exec.modifyEnv change).Cuts n full (Exec.modifyEnv change) := by
  refine .of_alike (.of_keeps fun s => rfl) ?_
  rintro s _ ⟨hs, hsize, rfl⟩
  exact .done ⟨hs, hsize, rfl⟩

theorem assign (name : String) (value : Value) :
    (Exec.assign name value).Cuts n full (Exec.assign name value) := by
  refine .of_alike (.of_keeps fun s => ?_) ?_
  · unfold Ends Exec.assign
    cases s.env.assign? name value <;> rfl
  · rintro s _ ⟨hs, hsize, rfl⟩
    simp only [Exec.assign]
    cases s.env.assign? name value with
    | none => exact .failed ⟨hs, hsize, rfl⟩
    | some env => exact .done ⟨hs, hsize, rfl⟩

theorem printLine (value : Value) : (Exec.printLine value).Cuts n full (Exec.printLine value) := by
  constructor
  · intro s hs
    unfold Ends Exec.printLine
    rw [hs.write]
    exact hs.later _
  · rintro s _ ⟨hs, hsize, rfl⟩
    have hmore := hs.later (value.text ++ "\n")
    simp only [Exec.printLine]
    rw [hs.write]
    by_cases hfits : s.sink.written.size + (value.text ++ "\n").utf8ByteSize ≤ n
    · rw [hs.write_cut_of_le hfits]
      refine .inl (.done ⟨hmore.1, ?_, rfl⟩)
      rwa [Sink.take, ByteArray.size_append]
    · obtain ⟨rest, hwrite, hrest⟩ := hs.write_cut_of_lt hsize (Nat.lt_of_not_le hfits)
      rw [hwrite]
      refine .over ?_
      rintro _ ⟨⟩
      refine ⟨?_, hrest.symm⟩
      rw [Sink.take, ByteArray.size_append]
      exact Nat.lt_of_not_le hfits

theorem bracket (h : m.Cuts n full m') (before after : Environment → Environment) :
    (m.bracket before after).Cuts n full (m'.bracket before after) := by
  refine ⟨h.appends.bracket before after, ?_⟩
  rintro s _ ⟨hs, hsize, rfl⟩
  rcases h.cutAt { s with env := before s.env } _ ⟨hs, hsize, rfl⟩ with halike | ⟨t', hm', hover⟩
  · refine .inl (bracket_alike halike ?_)
    rintro t _ ⟨ht, hsize, rfl⟩
    exact ⟨ht, hsize, rfl⟩
  · have hcut : m'.bracket before after { s with sink := s.sink.cut n full }
        = .failed (.output full) { t' with env := after t'.env } := by
      simp only [Exec.bracket, hm']
    rw [hcut]
    exact .over (exceeds_bracket hover)

theorem flush : Exec.flush.Cuts n full Exec.flush := by
  refine .of_alike (.of_keeps fun s => ?_) ?_
  · unfold Ends Exec.flush
    cases s.sink.flush <;> rfl
  · rintro s _ ⟨hs, hsize, rfl⟩
    have hflush : (s.sink.cut n full).flush = s.sink.flush := rfl
    simp only [Exec.flush, hflush]
    cases s.sink.flush with
    | none => exact .done ⟨hs, hsize, rfl⟩
    | some refusal => exact .failed ⟨hs, hsize, rfl⟩

end Cuts

theorem cuts_congruence (n : Nat) (full : Refusal) : Congruence (Cuts n full) where
  pure _ := .of_alike (.of_keeps fun _ => rfl) fun _ _ h => .done h
  fail _ := .of_alike (.of_keeps fun _ => rfl) fun _ _ h => .failed h
  bind := .bind
  lookup := .lookup
  assign := .assign
  define name value := .modifyEnv (·.define name value)
  printLine := .printLine
  inScope h := h.bracket _ _
  inFrame h := h.bracket _ _

theorem Cuts.unfinished : (Exec.unfinished : Exec α).Cuts n full Exec.unfinished :=
  .of_alike (.of_keeps fun _ => .unfinished) fun _ _ _ => .unfinished

end Exec

namespace Program

variable (program : Program)

theorem cuts (n : Nat) (full : Refusal) (fuel : Nat) :
    program.Related (Exec.Cuts n full) fuel fuel :=
  (Exec.cuts_congruence n full).related .unfinished program fuel

theorem cuts_runMain (n : Nat) (full : Refusal) (fuel : Nat) (inputs : List (String × Value)) :
    (program.runMain fuel inputs).Cuts n full (program.runMain fuel inputs) := by
  have hn := Exec.cuts_congruence n full
  unfold runMain
  cases program.function? "main" with
  | none => exact hn.fail .missingMain
  | some main =>
    refine hn.bind (hn.defineAll inputs) fun _ =>
      hn.bind ((program.cuts n full fuel).execAll main.body) fun flow => ?_
    cases flow with
    | normal => exact hn.pure noResult
    | returned v => exact hn.ofExcept v.result

/-- With room for `n` bytes a run that ends does the same and writes the same, if it writes no more
than that. If it writes more, it fails with the refusal of the sink instead, whatever it would have
come to, and what it has written are the first `n` bytes. -/
theorem run_limited {fuel : Nat} {inputs : List (String × Value)}
    {close : List String → Option Refusal} {s : State} (n : Nat) (full : Refusal)
    (h : (program.run fuel inputs (.unlimited close)).final? = some s) :
    (s.sink.written.size ≤ n →
        (program.run fuel inputs (.unlimited close)).Alike
          (fun t t' => t.sink.written = t'.sink.written ∧ t.env = t'.env)
          (program.run fuel inputs (.limited n full close))) ∧
      (n < s.sink.written.size →
        ∃ t, program.run fuel inputs (.limited n full close) = .failed (.output full) t ∧
          t.sink.written = s.sink.written.extract 0 n) := by
  have hn := Exec.cuts_congruence n full
  have hwhole := hn.bind (program.cuts_runMain n full fuel inputs) fun result =>
    hn.bind .flush fun _ => hn.pure result
  have hcut : (program.run fuel inputs (.unlimited close)).CutAt n full
      (program.run fuel inputs (.limited n full close)) :=
    hwhole.cutAt ⟨.fresh, .unlimited close⟩ _ ⟨⟨rfl, rfl⟩, Nat.zero_le n, rfl⟩
  rcases hcut with halike | ⟨t, hrun, hover⟩
  · generalize program.run fuel inputs (.unlimited close) = o at *
    generalize program.run fuel inputs (.limited n full close) = o' at *
    cases halike with
    | done ht =>
      obtain ⟨-, hsize, rfl⟩ := ht
      cases h
      exact ⟨fun _ => .done ⟨rfl, rfl⟩, fun hlt => absurd hsize (Nat.not_le_of_lt hlt)⟩
    | failed ht =>
      obtain ⟨-, hsize, rfl⟩ := ht
      cases h
      exact ⟨fun _ => .failed ⟨rfl, rfl⟩, fun hlt => absurd hsize (Nat.not_le_of_lt hlt)⟩
    | unfinished => cases h
  · obtain ⟨hsize, htext⟩ := hover s h
    exact ⟨fun hle => absurd hsize (Nat.not_lt_of_le hle), fun _ => ⟨t, hrun, htext.symm⟩⟩

/-- `print("ab"); return 1 / 0;` with room for two bytes: the line break does not fit, and the
division is never reached. -/
theorem run_limited_line :
    let division : Expr := .binary .div (.literal (.int 1)) (.literal (.int 0))
    let main : Function := ⟨.int, "main", [], [.print (.literal (.str "ab")), .ret (some division)]⟩
    let program : Program := ⟨[main], []⟩
    let s : State := ⟨.fresh, Sink.unlimited.take "ab\n" "ab\n".toUTF8⟩
    program.run 9 [] .unlimited = .failed .divisionByZero s ∧
      ∃ t, program.run 9 [] (.limited 2 ⟨"full"⟩) = .failed (.output ⟨"full"⟩) t ∧
        t.sink.written = "ab".toUTF8 := by
  intro division main program s
  have hrun : program.run 9 [] .unlimited = .failed .divisionByZero s := rfl
  have hend : (program.run 9 [] .unlimited).final? = some s := by rw [hrun]; rfl
  exact ⟨hrun, (run_limited program 2 ⟨"full"⟩ hend).2 (by decide)⟩

end Program

end MiniC
