import Sylar.Log.Formatter

/-! # `FileLogAppender`

The appender with its file. Every open and every write succeeds; `std::ofstream::open` in
its default mode truncates the file, and what was written reaches the file at the latest
when the stream is flushed or closed.
-/

namespace Sylar.Log

/-! ## The appender -/

/-- `file` is the content on disk, and `buffer` what the stream still holds. -/
structure FileLogAppender where
  filename : String
  level : Level
  formatter : LogFormatter
  lastTime : Nat
  file : String
  buffer : String
  deriving DecidableEq, Repr

def FileLogAppender.flush (a : FileLogAppender) : FileLogAppender :=
  { a with file := a.file ++ a.buffer, buffer := "" }

/-- `FileLogAppender::reopen`: `close`, then `open`. -/
def FileLogAppender.reopen (a : FileLogAppender) : FileLogAppender := { a.flush with file := "" }

/-- `FileLogAppender::FileLogAppender` on a file with content `old`, with the level and the
formatter that are set afterwards. -/
def FileLogAppender.new (filename old : String) (level : Level) (formatter : LogFormatter) :
    FileLogAppender :=
  FileLogAppender.reopen ⟨filename, level, formatter, 0, old, ""⟩

/-- A call of `log`; `now` is the reading of `time(0)`. -/
structure LogCall where
  now : Nat
  level : Level
  event : LogEvent
  deriving DecidableEq, Repr

variable (strftime : String → Nat → String)

def FileLogAppender.log (a : FileLogAppender) (call : LogCall) : FileLogAppender :=
  if a.level.value ≤ call.level.value then
    let a := if call.now ≠ a.lastTime then { a.reopen with lastTime := call.now } else a
    { a with buffer := a.buffer ++ a.formatter.format strftime call.level call.event }
  else a

/-! ## What is kept -/

def LogCall.text (formatter : LogFormatter) (call : LogCall) : String :=
  formatter.format strftime call.level call.event

def passing (level : Level) (calls : List LogCall) : List LogCall :=
  calls.filter fun call => level.value ≤ call.level.value

def textOf (formatter : LogFormatter) (calls : List LogCall) : String :=
  String.join (calls.map (LogCall.text strftime formatter))

variable {strftime} {formatter : LogFormatter} {a : FileLogAppender}

theorem textOf_append (calls calls' : List LogCall) :
    textOf strftime formatter (calls ++ calls') =
      textOf strftime formatter calls ++ textOf strftime formatter calls' := by
  simp [textOf]

theorem textOf_eq_empty {calls : List LogCall} :
    textOf strftime formatter calls = "" ↔ ∀ call ∈ calls, call.text strftime formatter = "" := by
  induction calls with
  | nil => simp [textOf]
  | cons call calls ih =>
      have hcons : textOf strftime formatter (call :: calls) =
          call.text strftime formatter ++ textOf strftime formatter calls := by
        simp [textOf]
      rw [hcons, String.append_eq_empty_iff, ih, List.forall_mem_cons]

variable (strftime) in
/-- The stream and the file hold the text of the calls since the last change of the second;
`lost` are the calls before it. -/
structure Retains (a : FileLogAppender) (lost kept : List LogCall) : Prop where
  content : a.file ++ a.buffer = textOf strftime a.formatter kept
  seconds : ∀ call ∈ kept, call.now = a.lastTime
  parted : lost = [] ∨ ∃ last first, lost.getLast? = some last ∧ kept.head? = some first ∧
    last.now ≠ first.now
  recent : kept = [] → lost = []

/-- A reopened appender keeps the one call that follows. -/
theorem Retains.reopen {lost kept : List LogCall} (h : Retains strftime a lost kept)
    {call : LogCall} (hnow : call.now ≠ a.lastTime) :
    Retains strftime
      { a.reopen with
        lastTime := call.now
        buffer := a.reopen.buffer ++ a.formatter.format strftime call.level call.event }
      (lost ++ kept) [call] := by
  refine ⟨?_, fun c hc => ?_, ?_, fun hnil => by cases hnil⟩
  · simp [FileLogAppender.reopen, FileLogAppender.flush, textOf, LogCall.text]
  · rw [List.mem_singleton.mp hc]
  · by_cases hkept : kept = []
    · exact .inl (by rw [hkept, h.recent hkept, List.append_nil])
    · have hlast := List.getLast?_eq_some_getLast hkept
      refine .inr ⟨kept.getLast hkept, call, ?_, rfl, ?_⟩
      · rw [List.getLast?_append_of_ne_nil _ hkept, hlast]
      · rw [h.seconds _ (List.getLast_mem hkept)]
        exact hnow.symm

/-- A call in the same second is kept with the others. -/
theorem Retains.write {lost kept : List LogCall} (h : Retains strftime a lost kept)
    {call : LogCall} (hnow : call.now = a.lastTime) :
    Retains strftime
      { a with buffer := a.buffer ++ a.formatter.format strftime call.level call.event }
      lost (kept ++ [call]) := by
  refine ⟨?_, fun c hc => ?_, ?_, fun hnil => by simp at hnil⟩
  · rw [textOf_append, ← h.content]
    simp [textOf, LogCall.text, String.append_assoc]
  · rcases List.mem_append.mp hc with hc | hc
    · exact h.seconds c hc
    · rw [List.mem_singleton.mp hc, hnow]
  · rcases h.parted with hlost | ⟨last, first, hlast, hfirst, hne⟩
    · exact .inl hlost
    · exact .inr ⟨last, first, hlast, by simp [hfirst], hne⟩

theorem log_settings (strftime : String → Nat → String) (a : FileLogAppender) (call : LogCall) :
    (a.log strftime call).level = a.level ∧ (a.log strftime call).formatter = a.formatter := by
  unfold FileLogAppender.log
  split
  · dsimp only
    split <;> exact ⟨rfl, rfl⟩
  · exact ⟨rfl, rfl⟩

theorem Retains.log {lost kept : List LogCall} (h : Retains strftime a lost kept)
    (call : LogCall) :
    ∃ lost' kept', Retains strftime (a.log strftime call) lost' kept' ∧
      lost' ++ kept' = lost ++ kept ++ passing a.level [call] := by
  unfold FileLogAppender.log
  by_cases hlevel : a.level.value ≤ call.level.value
  · have hpass : passing a.level [call] = [call] := by simp [passing, hlevel]
    rw [if_pos hlevel, hpass]
    by_cases hnow : call.now = a.lastTime
    · simp only [hnow, ne_eq, not_true_eq_false, if_false]
      exact ⟨lost, kept ++ [call], h.write hnow, (List.append_assoc ..).symm⟩
    · simp only [hnow, ne_eq, not_false_eq_true, if_true]
      exact ⟨lost ++ kept, [call], h.reopen hnow, rfl⟩
  · have hpass : passing a.level [call] = [] := by simp [passing, hlevel]
    rw [if_neg hlevel, hpass]
    exact ⟨lost, kept, h, (List.append_nil _).symm⟩

/-- A run splits the calls that pass the level test into lost and kept ones. -/
theorem Retains.logs {lost kept : List LogCall} (h : Retains strftime a lost kept)
    (calls : List LogCall) :
    ∃ lost' kept', Retains strftime (calls.foldl (FileLogAppender.log strftime) a) lost' kept' ∧
      (calls.foldl (FileLogAppender.log strftime) a).formatter = a.formatter ∧
      lost' ++ kept' = lost ++ kept ++ passing a.level calls := by
  induction calls generalizing a lost kept with
  | nil => exact ⟨lost, kept, h, rfl, (List.append_nil _).symm⟩
  | cons call calls ih =>
      obtain ⟨lost₁, kept₁, h₁, hsplit₁⟩ := h.log call
      obtain ⟨lost₂, kept₂, h₂, hformatter, hsplit₂⟩ := ih h₁
      obtain ⟨hlevel, hsame⟩ := log_settings strftime a call
      refine ⟨lost₂, kept₂, h₂, hformatter.trans hsame, ?_⟩
      rw [hsplit₂, hsplit₁, hlevel, List.append_assoc _ (passing a.level [call])]
      simp only [passing, ← List.filter_append, List.singleton_append]

/-- Nothing was lost exactly if no text was followed by a call in another second. -/
theorem Retains.complete_iff {lost kept : List LogCall} (h : Retains strftime a lost kept) :
    a.file ++ a.buffer = textOf strftime a.formatter (lost ++ kept) ↔
      (lost ++ kept).Pairwise fun earlier later =>
        earlier.text strftime a.formatter = "" ∨ earlier.now = later.now := by
  rw [h.content, textOf_append, eq_comm, String.append_eq_right_iff, textOf_eq_empty]
  constructor
  · intro hempty
    rw [List.pairwise_append]
    refine ⟨?_, ?_, fun c hc d _ => .inl (hempty c hc)⟩
    · exact List.pairwise_of_forall_mem_list fun c hc d _ => .inl (hempty c hc)
    · exact List.pairwise_of_forall_mem_list fun c hc d hd =>
        .inr ((h.seconds c hc).trans (h.seconds d hd).symm)
  · intro hpairs call hcall
    rw [List.pairwise_append] at hpairs
    obtain ⟨hlost, _, hcross⟩ := hpairs
    rcases h.parted with hnil | ⟨last, first, hlast, hfirst, hne⟩
    · rw [hnil] at hcall
      cases hcall
    · -- the text of `call` would have to come in the seconds of both `last` and `first`
      by_contra htext
      obtain ⟨before, hbefore⟩ := List.getLast?_eq_some_iff.mp hlast
      have hsame : call.now = last.now := by
        rw [hbefore] at hcall hlost
        rcases List.mem_append.mp hcall with hin | hin
        · exact ((List.pairwise_append.mp hlost).2.2 call hin last
            (List.mem_singleton_self last)).resolve_left htext
        · rw [List.mem_singleton.mp hin]
      have hnext := (hcross call hcall first (List.mem_of_mem_head? hfirst)).resolve_left htext
      exact hne (hsame.symm.trans hnext)

/-! ## The content of the file -/

/-- The file holds everything that was logged exactly if no text was followed by a call
in another second. -/
theorem file_complete_iff (strftime : String → Nat → String) (filename old : String)
    (level : Level) (formatter : LogFormatter) (calls : List LogCall) :
    (calls.foldl (FileLogAppender.log strftime) (.new filename old level formatter)).flush.file =
        textOf strftime formatter (passing level calls) ↔
      (passing level calls).Pairwise fun earlier later =>
        earlier.text strftime formatter = "" ∨ earlier.now = later.now := by
  have hnew : Retains strftime (.new filename old level formatter) [] [] :=
    ⟨by simp [FileLogAppender.new, FileLogAppender.reopen, FileLogAppender.flush, textOf],
      fun _ hc => (by cases hc), .inl rfl, fun _ => rfl⟩
  obtain ⟨lost, kept, h, hformatter, hsplit⟩ := hnew.logs calls
  have hcomplete := h.complete_iff
  rw [hformatter, hsplit] at hcomplete
  exact hcomplete

def twoSeconds : List LogCall :=
  [⟨100, .error, ⟨"a.cpp", 1, 0, 1, 0, 100, "main", "first ", "root"⟩⟩,
    ⟨101, .error, ⟨"a.cpp", 2, 9, 1, 0, 101, "main", "second", "root"⟩⟩]

theorem reopen_truncates :
    (twoSeconds.foldl (FileLogAppender.log fun fmt _ => fmt)
        (.new "./log.txt" "" .error ⟨"%m"⟩)).flush.file = "second" ∧
      textOf (fun fmt _ => fmt) ⟨"%m"⟩ (passing .error twoSeconds) = "first second" := by
  decide +kernel

end Sylar.Log
