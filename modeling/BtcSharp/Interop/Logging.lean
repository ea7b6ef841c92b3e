/-
# Logging

`LogPrintStr` and `StartLogging` of `BCLog::Logger`, with `btcsharp_log` for the managed sink. Bytes
are natural numbers. What stands before a message, and whether the log file can be opened, is input.

Messages are escaped on the way to the console, the file and the callbacks, and those that are
buffered early are counted exactly. The managed sink gets them before they are escaped.
-/

import BtcSharp.Bech32.Native
import Mathlib.Data.Nat.Digits.Lemmas

namespace BtcSharp

open List

/-- A message with the texts that its memory is counted for, and what `FormatLogStrInPlace` puts
before it. -/
structure BufferedLog where
  str : List Nat
  logging_function : List Nat
  source_file : List Nat
  threadname : List Nat
  logPrefix : List Nat

inductive LogSink
  | console
  | file
  | callback (i : Nat)
  | managed
  | stderr
  deriving DecidableEq

structure LogOutput where
  sink : LogSink
  logPrefix : List Nat
  text : List Nat

structure Logger where
  m_buffering : Bool := true
  m_fileout : Bool := false
  m_print_to_console : Bool
  m_print_to_file : Bool
  /-- How many callbacks there are. -/
  m_print_callbacks : Nat
  m_max_buffer_memusage : Nat
  m_msgs_before_open : List BufferedLog := []
  m_cur_buffer_memusage : Nat := 0
  m_buffer_lines_discarded : Nat := 0

def hexDigit (n : Nat) : Nat := if n < 10 then 48 + n else 87 + n

/-- A byte of a message as it is, or as `\x%02x`. -/
def escapeByte (ch : Nat) : List Nat :=
  if (32 ≤ ch ∨ ch = 10) ∧
    ch ≠ 0x7f then [ch] else [92, 120, hexDigit (ch / 16), hexDigit (ch % 16)]

def logEscapeMessage (str : List Nat) : List Nat := str.flatMap escapeByte

/-- The message as it is buffered. -/
def BufferedLog.escaped (buflog : BufferedLog) : BufferedLog :=
    { buflog with str := logEscapeMessage buflog.str }

/-- The memory of a list node is a constant of the platform. -/
def memUsage (listNode : Nat) (buflog : BufferedLog) : Nat :=
  buflog.str.length + buflog.logging_function.length + buflog.source_file.length +
    buflog.threadname.length + listNode

/-- The formatted message: what stands before it, and the text with a newline at its end. -/
def BufferedLog.formatted (buflog : BufferedLog) : List Nat × List Nat :=
  (buflog.logPrefix, if buflog.str.getLast? = some 10 then buflog.str else buflog.str ++ [10])

/-- What `btcsharp_log` hands to the managed sink, whose length is a 32-bit integer, or to the
fallback. -/
def handedOn (s_log : Bool) (msg : List Nat) : List Nat :=
    if s_log then msg.take (toInt32 msg.length).toNat else msg

def btcsharpLog (s_log : Bool) (msg : List Nat) : List LogOutput :=
  if msg = [] then []
  else if s_log then [⟨.managed, [], handedOn s_log msg⟩]
  else [⟨.stderr, [], handedOn s_log msg⟩, ⟨.stderr, [], [10]⟩]

/-- `Early logging buffer overflowed, %d log lines discarded.` -/
def overflowNotice (discarded : Nat) : List Nat :=
  "Early logging buffer overflowed, ".toList.map Char.toNat ++ (Nat.digits 10 discarded).reverse.map
    (48 + ·) ++ " log lines discarded.\n".toList.map Char.toNat

namespace Logger

variable (listNode : Nat)

/-- The loop that drops messages while too much memory is used: what is left, its memory and the
count of drops. -/
def evict (max : Nat) : List BufferedLog → (cur discarded : Nat) → List BufferedLog × Nat × Nat
  | [], cur, discarded => ([], if max < cur then 0 else cur, discarded)
  | front :: rest, cur, discarded =>
      if max < cur then evict max rest (cur - memUsage listNode front) (discarded + 1)
      else (front :: rest, cur, discarded)

def consoleSink (logger : Logger) : List LogSink :=
    if logger.m_print_to_console then [.console] else []

def callbackSinks (logger : Logger) : List LogSink :=
    (List.range logger.m_print_callbacks).map .callback

/-- A file that is not open stops the process. -/
def fileSink (logger : Logger) : List LogSink :=
  if logger.m_print_to_file ∧ logger.m_fileout then [.file] else []

def emit (sinks : List LogSink) (buflog : BufferedLog) : List LogOutput :=
  sinks.map fun sink => ⟨sink, buflog.formatted.1, buflog.formatted.2⟩

def logPrintStr (s_log : Bool) (buflog : BufferedLog) (logger : Logger) : Logger × List LogOutput :=
  if logger.m_buffering then
    let left :=
      evict listNode logger.m_max_buffer_memusage (logger.m_msgs_before_open ++ [buflog.escaped])
      (logger.m_cur_buffer_memusage + memUsage listNode buflog.escaped)
        logger.m_buffer_lines_discarded
    ({ logger with
        m_msgs_before_open := left.1, m_cur_buffer_memusage :=
        left.2.1, m_buffer_lines_discarded := left.2.2 },
      btcsharpLog s_log buflog.str)
  else (logger, btcsharpLog s_log buflog.str ++
    emit (logger.consoleSink ++ logger.callbackSinks ++ logger.fileSink) buflog.escaped)

/-- `StartLogging`, whose notice is printed with the other texts of `here`. -/
def startLogging (s_log opened : Bool) (here : BufferedLog) (logger : Logger) :
    Bool × Logger × List LogOutput :=
  if logger.m_print_to_file ∧ ¬ opened then (false, logger, [])
  else
    let logger := { logger with m_fileout := logger.m_print_to_file, m_buffering := false }
    let notice := if 0 < logger.m_buffer_lines_discarded then
      (logger.logPrintStr listNode s_log
        { here with str := overflowNotice logger.m_buffer_lines_discarded }).2 else []
    (true, { logger with m_msgs_before_open := [], m_cur_buffer_memusage := 0 },
      logger.fileSink.map (fun sink => ⟨sink, [], List.replicate 5 10⟩) ++ notice ++
        logger.m_msgs_before_open.flatMap
          (emit (logger.fileSink ++ logger.consoleSink ++ logger.callbackSinks)))

/-! ## What is escaped -/

/-- No control characters but newlines. -/
def Clean (text : List Nat) : Prop := ∀ ch ∈ text, (32 ≤ ch ∧ ch ≠ 0x7f) ∨ ch = 10

instance (text : List Nat) : Decidable (Clean text) := inferInstanceAs (Decidable (∀ ch ∈ text, _))

theorem clean_escaped (buflog : BufferedLog) : Clean buflog.escaped.str := by
  intro ch hch
  obtain ⟨byte, -, hbyte⟩ := mem_flatMap.mp hch
  have hdigit : ∀ n, 32 ≤ hexDigit n ∧ hexDigit n ≠ 0x7f ∨ 16 ≤ n := by
    intro n
    unfold hexDigit
    split <;> omega
  unfold escapeByte at hbyte
  split at hbyte
  · next hplain =>
    obtain rfl := mem_singleton.mp hbyte
    omega
  have hhigh := hdigit (byte / 16)
  have hlow := hdigit (byte % 16)
  simp only [mem_cons, not_mem_nil, or_false] at hbyte
  omega

theorem clean_emit {buflog : BufferedLog} (h : Clean buflog.str) (sinks : List LogSink) :
    ∀ out ∈ emit sinks buflog, Clean out.text := by
  intro out hout
  obtain ⟨_, -, rfl⟩ := mem_map.mp hout
  show Clean (if _ then _ else _)
  split
  · exact h
  · exact forall_mem_append.mpr ⟨h, by decide⟩

theorem clean_overflowNotice (discarded : Nat) : Clean (overflowNotice discarded) := by
  refine forall_mem_append.mpr ⟨forall_mem_append.mpr ⟨by decide, ?_⟩, by decide⟩
  intro ch hch
  obtain ⟨_, hdigit, rfl⟩ := mem_map.mp hch
  have hlt := Nat.digits_lt_base (by decide) (mem_reverse.mp hdigit)
  omega

theorem clean_handedOn (s_log : Bool) {msg : List Nat} (h : Clean msg) :
    Clean (handedOn s_log msg) := by
  unfold handedOn
  split
  · exact fun ch hch => h ch (mem_of_mem_take hch)
  · exact h

theorem clean_btcsharpLog (s_log : Bool) (msg : List Nat) :
    (∀ out ∈ btcsharpLog s_log msg, Clean out.text) ↔ Clean (handedOn s_log msg) := by
  have hnewline : Clean [10] := by decide
  unfold btcsharpLog
  split
  · next hempty => simp [hempty, handedOn, Clean]
  split
  · simp
  · simp [hnewline]

theorem clean_logPrintStr (s_log : Bool) (buflog : BufferedLog) (logger : Logger) :
    (∀ out ∈ (logger.logPrintStr listNode s_log buflog).2, Clean out.text) ↔
    Clean (handedOn s_log buflog.str) := by
  rw [← clean_btcsharpLog]
  unfold logPrintStr
  split
  · rfl
  · rw [forall_mem_append]
    exact and_iff_left (clean_emit (clean_escaped buflog) _)

/-- Messages are dropped from the front. -/
theorem evict_eq (max : Nat) (msgs : List BufferedLog) (cur discarded : Nat) :
    ∃ dropped, msgs = dropped ++ (evict listNode max msgs cur discarded).1 ∧
      (evict listNode max msgs cur discarded).2.2 = discarded + dropped.length := by
  induction msgs generalizing cur discarded with
  | nil => exact ⟨[], rfl, rfl⟩
  | cons front rest ih =>
    unfold evict
    split
    · obtain ⟨dropped, hrest, hcount⟩ := ih (cur - memUsage listNode front) (discarded + 1)
      refine ⟨front :: dropped, congrArg (front :: ·) hrest, ?_⟩
      rw [hcount, length_cons, Nat.add_assoc, Nat.add_comm 1]
    · exact ⟨[], rfl, rfl⟩

/-- Calls of `LogPrintStr` and of `StartLogging`, whose assertions hold: the logger, what was
printed and what was put out. -/
inductive Run : Logger → List (Bool × BufferedLog) → List LogOutput → Prop
  | begin {logger : Logger} (hempty : logger.m_msgs_before_open = []) : Run logger [] []
  | print {logger : Logger} {printed : List (Bool × BufferedLog)} {outputs : List LogOutput}
      (run : Run logger printed outputs) (s_log : Bool) (buflog : BufferedLog) :
      Run (logger.logPrintStr listNode s_log buflog).1 (printed ++ [(s_log, buflog)])
        (outputs ++ (logger.logPrintStr listNode s_log buflog).2)
  | start {logger : Logger} {printed : List (Bool × BufferedLog)} {outputs : List LogOutput}
      (run : Run logger printed outputs) (hbuffering : logger.m_buffering = true)
        (hfile : logger.m_fileout = false)
      (s_log opened : Bool) (here : BufferedLog) :
      Run (logger.startLogging listNode s_log opened here).2.1 printed
        (outputs ++ (logger.startLogging listNode s_log opened here).2.2)

variable {listNode} {logger : Logger} {printed : List (Bool × BufferedLog)}
    {outputs : List LogOutput}

/-- What is buffered is escaped. -/
theorem Run.clean_buffer (run : Run listNode logger printed outputs) :
    ∀ buflog ∈ logger.m_msgs_before_open, Clean buflog.str := by
  induction run with
  | begin hempty =>
    rw [hempty]
    exact nofun
  | @print logger _ _ run s_log buflog ih =>
    unfold logPrintStr
    split
    · intro other hother
      obtain ⟨_, heq, -⟩ := evict_eq listNode logger.m_max_buffer_memusage
        (logger.m_msgs_before_open ++ [buflog.escaped])
        (logger.m_cur_buffer_memusage + memUsage listNode buflog.escaped)
          logger.m_buffer_lines_discarded
      have hmem : other ∈ logger.m_msgs_before_open ++ [buflog.escaped] := by
        rw [heq]
        exact mem_append_right _ hother
      rcases mem_append.mp hmem with hold | hnew
      · exact ih other hold
      · rw [mem_singleton.mp hnew]
        exact clean_escaped buflog
    · exact ih
  | start run hbuffering hfile s_log opened here ih =>
    unfold startLogging
    split
    · exact ih
    · exact nofun

/-- All outputs are clean if and only if what was printed is, as far as it is handed to the managed
sink or to its fallback: there it is not escaped. -/
theorem Run.clean_iff (run : Run listNode logger printed outputs) :
    (∀ out ∈ outputs, Clean out.text) ↔
    ∀ entry ∈ printed, Clean (handedOn entry.1 entry.2.str) := by
  induction run with
  | begin hempty => simp
  | print run s_log buflog ih =>
    rw [forall_mem_append, forall_mem_append, ih, clean_logPrintStr, forall_mem_singleton]
  | @start logger printed outputs run hbuffering hfile s_log opened here ih =>
    rw [forall_mem_append, ih]
    apply and_iff_left
    unfold startLogging
    split
    · exact nofun
    rw [forall_mem_append, forall_mem_append]
    refine ⟨⟨?_, ?_⟩, ?_⟩
    · have hnewlines : Clean (replicate 5 10) := by decide
      exact forall_mem_map.mpr fun _ _ => hnewlines
    · split
      · rw [clean_logPrintStr]
        exact clean_handedOn s_log (clean_overflowNotice _)
      · exact nofun
    · intro out hout
      obtain ⟨buflog, hbuflog, hmem⟩ := mem_flatMap.mp hout
      exact clean_emit (run.clean_buffer buflog hbuflog) _ out hmem

/-- A message of one byte. -/
def oneByte (ch : Nat) : BufferedLog := ⟨[ch], [], [], [], []⟩

/-- A logger at the beginning. -/
def early (m_print_to_console m_print_to_file : Bool)
    (m_print_callbacks m_max_buffer_memusage : Nat) : Logger where
  m_print_to_console := m_print_to_console
  m_print_to_file := m_print_to_file
  m_print_callbacks := m_print_callbacks
  m_max_buffer_memusage := m_max_buffer_memusage

/-- A letter is buffered, logging starts, and another one follows: all outputs are clean. After an
escape character they are not, although the file gets it escaped. -/
theorem Run.clean_iff_letter :
    (∃ logger outputs, Run 0 logger [(true, oneByte 65), (true, oneByte 66)] outputs ∧
      (∀ out ∈ outputs, Clean out.text) ∧ outputs.length = 9) ∧
    ∃ logger outputs, Run 0 logger [(true, oneByte 65), (true, oneByte 27)] outputs ∧
      (¬ ∀ out ∈ outputs, Clean out.text) ∧
      ((outputs.filter (·.sink = .file)).map (·.text)).getLast? = some [92, 120, 49, 98, 10] := by
  have hstarted := ((@Run.begin 0 (early true true 1 9) rfl).print true (oneByte 65)).start rfl rfl
    true true (oneByte 0)
  have hletter := hstarted.print true (oneByte 66)
  have hescape := hstarted.print true (oneByte 27)
  exact ⟨⟨_, _, hletter, hletter.clean_iff.mpr (by decide), rfl⟩,
    _, _, hescape, mt hescape.clean_iff.mp (by decide), rfl⟩

/-- An escape character is handed to the managed sink. -/
theorem escape_handed_on : ∃ logger outputs, Run 0 logger [(true, oneByte 27)] outputs ∧
    ¬ ∀ out ∈ outputs, Clean out.text := by
  refine ⟨_, _, .print (@Run.begin 0 (early true true 1 9) rfl) true (oneByte 27), ?_⟩
  intro hclean
  exact absurd (hclean ⟨.managed, [], [27]⟩ mem_cons_self) (by decide)

/-! ## What is buffered -/

/-- What a callback receives. -/
def received (i : Nat) (outputs : List LogOutput) : List (List Nat × List Nat) :=
  (outputs.filter (·.sink = .callback i)).map fun out => (out.logPrefix, out.text)

theorem received_append (i : Nat) (first second : List LogOutput) :
    received i (first ++ second) = received i first ++ received i second := by
  rw [received, filter_append, map_append]
  rfl

theorem received_btcsharpLog (i : Nat) (s_log : Bool) (msg : List Nat) :
    received i (btcsharpLog s_log msg) = [] := by
  unfold btcsharpLog
  split
  · rfl
  · split <;> simp [received]

/-- A message reaches a callback once. -/
theorem received_emit {i : Nat} {sinks : List LogSink} (hnodup : sinks.Nodup)
    (hi : .callback i ∈ sinks)
    (buflog : BufferedLog) : received i (emit sinks buflog) = [buflog.formatted] := by
  have hsinks : sinks.filter (· = .callback i) = [.callback i] := by
    rw [filter_eq, count_eq_one_of_mem hnodup hi]
    rfl
  rw [received, emit, filter_map, map_map]
  show (sinks.filter (· = .callback i)).map _ = _
  rw [hsinks]
  rfl

theorem nodup_sinks (logger : Logger) :
    (logger.fileSink ++ logger.consoleSink ++ logger.callbackSinks).Nodup := by
  have hcallbacks : logger.callbackSinks.Nodup := nodup_range.map fun _ _ => LogSink.callback.inj
  unfold fileSink consoleSink
  split <;> split <;> simp [hcallbacks] <;> simp [callbackSinks]

theorem received_logPrintStr (hbuffering : logger.m_buffering = false) {i : Nat}
    (hi : .callback i ∈ logger.fileSink ++ logger.consoleSink ++ logger.callbackSinks)
      (s_log : Bool)
    (buflog : BufferedLog) :
      received i (logger.logPrintStr listNode s_log buflog).2 = [buflog.escaped.formatted] := by
  have hperm : (logger.fileSink ++ logger.consoleSink ++ logger.callbackSinks).Perm
      (logger.consoleSink ++ logger.callbackSinks ++ logger.fileSink) := by
    rw [append_assoc]
    exact perm_append_comm
  rw [logPrintStr, hbuffering, if_neg Bool.false_ne_true, received_append, received_btcsharpLog,
    received_emit (hperm.nodup_iff.mp (nodup_sinks logger)) (hperm.mem_iff.mp hi)]
  rfl

theorem received_replay {i : Nat} {sinks : List LogSink} (hnodup : sinks.Nodup)
    (hi : .callback i ∈ sinks)
    (msgs : List BufferedLog) :
      received i (msgs.flatMap (emit sinks)) = msgs.map BufferedLog.formatted := by
  induction msgs with
  | nil => rfl
  | cons buflog rest ih => rw [flatMap_cons, received_append, received_emit hnodup hi, ih]; rfl

theorem evict_usage (listNode max : Nat) (msgs : List BufferedLog) (discarded : Nat) :
    (evict listNode max msgs (msgs.map (memUsage listNode)).sum discarded).2.1 =
        ((evict listNode max msgs (msgs.map (memUsage listNode)).sum discarded).1.map
          (memUsage listNode)).sum ∧
      (evict listNode max msgs (msgs.map (memUsage listNode)).sum discarded).2.1 ≤ max := by
  induction msgs generalizing discarded with
  | nil => simp [evict]
  | cons front rest ih =>
    unfold evict
    split
    · rw [map_cons, sum_cons, Nat.add_sub_cancel_left]
      exact ih (discarded + 1)
    · next hfits => exact ⟨rfl, Nat.le_of_not_lt hfits⟩

/-- What is known about the buffer when messages were printed to it. -/
structure Buffered (listNode : Nat) (printed : List (Bool × BufferedLog)) (logger : Logger) :
    Prop where
  buffering : logger.m_buffering = true
  kept : ∃ dropped, printed.map (·.2.escaped) = dropped ++ logger.m_msgs_before_open ∧
    logger.m_buffer_lines_discarded = dropped.length
  usage : logger.m_cur_buffer_memusage = (logger.m_msgs_before_open.map (memUsage listNode)).sum
  bounded : logger.m_cur_buffer_memusage ≤ logger.m_max_buffer_memusage

theorem Buffered.print (h : Buffered listNode printed logger) (s_log : Bool)
    (buflog : BufferedLog) :
    Buffered listNode (printed ++ [(s_log, buflog)])
      (logger.logPrintStr listNode s_log buflog).1 := by
  have husage : logger.m_cur_buffer_memusage + memUsage listNode buflog.escaped =
      ((logger.m_msgs_before_open ++ [buflog.escaped]).map (memUsage listNode)).sum := by
    rw [h.usage, map_append, sum_append, map_singleton, sum_singleton]
  obtain ⟨dropped, hprinted, hcount⟩ := h.kept
  unfold logPrintStr
  rw [if_pos h.buffering, husage]
  obtain ⟨later, hlater, hdiscarded⟩ := evict_eq listNode logger.m_max_buffer_memusage
    (logger.m_msgs_before_open ++ [buflog.escaped])
    ((logger.m_msgs_before_open ++ [buflog.escaped]).map (memUsage listNode)).sum
      logger.m_buffer_lines_discarded
  obtain ⟨hcur, hbounded⟩ := evict_usage listNode logger.m_max_buffer_memusage
    (logger.m_msgs_before_open ++ [buflog.escaped]) logger.m_buffer_lines_discarded
  refine ⟨h.buffering, ⟨dropped ++ later, ?_, ?_⟩, hcur, hbounded⟩
  · rw [map_append, hprinted, append_assoc, append_assoc]
    exact congrArg (dropped ++ ·) hlater
  · rw [length_append, ← hcount]
    exact hdiscarded

/-- The logger after messages were printed. -/
def printAll (listNode : Nat) (printed : List (Bool × BufferedLog)) (logger : Logger) : Logger :=
  printed.foldl (fun logger entry => (logger.logPrintStr listNode entry.1 entry.2).1) logger

theorem buffered_printAll (console file : Bool) (callbacks max : Nat)
    (printed : List (Bool × BufferedLog)) :
    Buffered listNode printed ((early console file callbacks max).printAll listNode printed) := by
  induction printed using reverseRecOn with
  | nil => exact ⟨rfl, ⟨[], rfl, rfl⟩, rfl, Nat.zero_le _⟩
  | append_singleton printed entry ih =>
    rw [printAll, foldl_append]
    exact ih.print entry.1 entry.2

/-- Printing leaves the settings alone. -/
theorem settings_printAll (console file : Bool) (callbacks max : Nat)
    (printed : List (Bool × BufferedLog)) :
    let logger := (early console file callbacks max).printAll listNode printed
    logger.m_print_to_file = file ∧ logger.m_print_callbacks = callbacks ∧
      logger.m_max_buffer_memusage = max := by
  induction printed using reverseRecOn with
  | nil => exact ⟨rfl, rfl, rfl⟩
  | append_singleton printed entry ih =>
    rw [printAll, foldl_append]
    dsimp only [foldl_cons, foldl_nil]
    unfold logPrintStr
    split <;> exact ih

/-- The memory of the buffer is counted exactly and bounded. Logging starts unless there is a log
file that cannot be opened, in which case nothing is put out and the buffer is kept. When it starts,
the callbacks receive the messages that are still buffered, the last ones that were printed, after a
notice of how many there were before them. -/
theorem early_messages_received (listNode : Nat) (console file : Bool) (callbacks max : Nat)
    (printed : List (Bool × BufferedLog)) :
    let logger := (early console file callbacks max).printAll listNode printed
    (logger.m_cur_buffer_memusage = (logger.m_msgs_before_open.map (memUsage listNode)).sum ∧
      logger.m_cur_buffer_memusage ≤ max) ∧
    ∀ s_log opened here,
      ((file = true ∧ opened = false) →
        logger.startLogging listNode s_log opened here = (false, logger, [])) ∧
      ((file = true → opened = true) →
        (logger.startLogging listNode s_log opened here).1 = true ∧
        ∃ dropped, printed.map (·.2.escaped) = dropped ++ logger.m_msgs_before_open ∧
          ∀ i < callbacks, received i (logger.startLogging listNode s_log opened here).2.2 =
            (if dropped = [] then []
              else [({ here with str := overflowNotice dropped.length }
                : BufferedLog).escaped.formatted]) ++
            logger.m_msgs_before_open.map BufferedLog.formatted) := by
  intro logger
  have h : Buffered listNode printed logger := buffered_printAll console file callbacks max printed
  obtain ⟨hfile, hcallbacks, hmax⟩ := settings_printAll console file callbacks max printed
  refine ⟨⟨h.usage, hmax ▸ h.bounded⟩, fun s_log opened here => ⟨?_, ?_⟩⟩
  · rintro ⟨hprints, hclosed⟩
    exact if_pos ⟨hfile.trans hprints, by simp [hclosed]⟩
  intro hopens
  have hopened : ¬ (logger.m_print_to_file ∧ ¬ opened) := fun hboth =>
    hboth.2 (hopens (hfile.symm.trans hboth.1))
  obtain ⟨dropped, hprinted, hcount⟩ := h.kept
  unfold startLogging
  rw [if_neg hopened]
  refine ⟨rfl, dropped, hprinted, ?_⟩
  intro i hi
  rw [← hcallbacks] at hi
  generalize hopen :
    { logger with m_fileout := logger.m_print_to_file, m_buffering := false } = started
  have hi' : .callback i ∈ started.fileSink ++ started.consoleSink ++ started.callbackSinks := by
    rw [← hopen]
    exact mem_append_right _ (mem_map_of_mem (mem_range.mpr hi))
  have hheader : received i (started.fileSink.map fun sink => ⟨sink, [], replicate 5 10⟩) = [] := by
    unfold fileSink
    split <;> simp [received]
  have hbuffering : started.m_buffering = false := by rw [← hopen]
  have hdiscarded : started.m_buffer_lines_discarded = dropped.length := by
    rw [← hopen]
    exact hcount
  have hmsgs : started.m_msgs_before_open = logger.m_msgs_before_open := by rw [← hopen]
  rw [received_append, received_append, hheader, received_replay (nodup_sinks started) hi',
    hmsgs, hdiscarded]
  by_cases hnone : dropped = []
  · rw [hnone]
    rfl
  · rw [if_neg hnone, if_pos (length_pos_iff.mpr hnone), received_logPrintStr hbuffering hi']
    rfl

/-- Three messages are printed to a buffer of five bytes. The first one is dropped, and the callback
receives a notice of it and the other two, the last one escaped. -/
theorem early_messages_received_overflow :
    let printed := [(true, oneByte 65), (true, oneByte 66), (true, oneByte 27)]
    let here := oneByte 0
    received 0 (((early true true 1 5).printAll 0 printed).startLogging 0 true true here).2.2 =
      [({ here with str := overflowNotice 1 } : BufferedLog).escaped.formatted,
        ([], [66, 10]), ([], [92, 120, 49, 98, 10])] := by
  intro printed here
  obtain ⟨-, hstart⟩ := early_messages_received 0 true true 1 5 printed
  obtain ⟨-, dropped, hsplit, hreceived⟩ := (hstart true true here).2 fun _ => rfl
  have hdropped : dropped = [oneByte 65] := (append_cancel_right hsplit).symm
  rw [hreceived 0 (by decide), hdropped]
  rfl

end Logger

end BtcSharp
