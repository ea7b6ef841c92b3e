/-
# The lifecycle of the managed runtime

`hostfxr_bridge.cpp`, and the functions of the two bridges that start and stop it. What the host
does is input: which of its calls fail, and the pointers that it returns. Null pointers are `none`.
The count of users is an `int` that wraps.

A call that fails late keeps what it wrote before, so that only some failures leave the globals as
they were.
-/

import Mathlib.Data.List.Basic

namespace BtcSharp

structure BridgeGlobals where
  g_refcount : Int32 := 0
  lib_handle : Option Nat := none
  g_ctx : Option Nat := none
  g_load_asm_and_get_ptr : Option Nat := none
  s_encode : Option Nat := none
  s_decode : Option Nat := none
  s_log : Option Nat := none
  s_shutdown : Option Nat := none
  deriving DecidableEq

/-- What `load_hostfxr_exports` meets. -/
inductive HostFxr
  | unavailable
  | missingExports
  | loaded (lib : Nat)

/-- A return code, and the pointer behind the argument after the call. -/
structure HostResult where
  rc : Int
  pointer : Option Nat

/-- The pointer, if the call succeeded and it is not null. -/
def HostResult.get (result : HostResult) : Option Nat :=
    if result.rc ≠ 0 then none else result.pointer

/-- What the host does in `fxr_init_from_runtimeconfig`. Failing, it may have written a context. -/
structure HostInit where
  library : HostFxr
  initialized : HostResult
  delegate : HostResult

namespace BridgeGlobals

def fxrInitFromRuntimeconfig (runtimeconfig_path : List Char) (host : HostInit)
    (g : BridgeGlobals) : Bool × BridgeGlobals :=
  if runtimeconfig_path = [] then (false, g)
  else if 0 < g.g_refcount then (true, { g with g_refcount := g.g_refcount + 1 })
  else
    match host.library with
    | .unavailable => (false, g)
    | .missingExports => (false, { g with lib_handle := none })
    | .loaded lib =>
        let g := { g with lib_handle := some lib, g_ctx := host.initialized.pointer }
        if host.initialized.get = none then (false, g)
        else if host.delegate.get = none then (false, { g with g_ctx := none })
        else (true, { g with g_load_asm_and_get_ptr := host.delegate.get, g_refcount := 1 })

def fxrLoadUmco (load : HostResult) (g : BridgeGlobals) : Option Nat :=
  if g.g_ctx = none ∨ g.g_load_asm_and_get_ptr = none then none else load.get

def fxrShutdown (g : BridgeGlobals) : BridgeGlobals :=
  if g.g_refcount ≤ 0 then g
  else if g.g_refcount ≠ 1 then { g with g_refcount := g.g_refcount - 1 }
  else { g with
    g_refcount := 0
    g_ctx := none
    g_load_asm_and_get_ptr := if g.g_ctx = none then g.g_load_asm_and_get_ptr else none
    lib_handle := none }

variable (exe_dir : List Char)

/-- The path of the configuration, next to the executable. -/
def rcfgPath : List Char := exe_dir ++ "/btcsharp.runtimeconfig.json".toList

/-- The runtime is started first. -/
def withRuntime (host : HostInit) (next : BridgeGlobals →
    Bool × BridgeGlobals) (g : BridgeGlobals) : Bool × BridgeGlobals :=
  match g.fxrInitFromRuntimeconfig (rcfgPath exe_dir) host with
  | (false, g) => (false, g)
  | (true, g) => next g

def btcsharpBech32Init (host : HostInit) (encode decode : HostResult) :
    BridgeGlobals → Bool × BridgeGlobals :=
  withRuntime exe_dir host fun g =>
    match g.fxrLoadUmco encode with
    | none => (false, g)
    | some enc_ptr =>
        match g.fxrLoadUmco decode with
        | none => (false, { g with s_encode := some enc_ptr })
        | some dec_ptr => (true, { g with s_encode := some enc_ptr, s_decode := some dec_ptr })

def btcsharpBech32Shutdown (g : BridgeGlobals) : BridgeGlobals :=
  { g with s_encode := none, s_decode := none }.fxrShutdown

/-- It does not matter whether `Shutdown` is found. -/
def btcsharpLoggingInit (host : HostInit) (log shutdown : HostResult) :
    BridgeGlobals → Bool × BridgeGlobals :=
  withRuntime exe_dir host fun g =>
    match g.fxrLoadUmco log with
    | none => (false, g)
    | some log_ptr => (true, { g with
        s_log := some log_ptr
        s_shutdown := (g.fxrLoadUmco shutdown).or g.s_shutdown })

/-- The managed function that is called first changes none of the globals. -/
def btcsharpLoggingShutdown (g : BridgeGlobals) : BridgeGlobals := g.fxrShutdown

end BridgeGlobals

/-- The calls on the bridge. -/
inductive BridgeCall
  | fxrInit (runtimeconfig_path : List Char) (host : HostInit)
  | bech32Init (exe_dir : List Char) (host : HostInit) (encode decode : HostResult)
  | loggingInit (exe_dir : List Char) (host : HostInit) (log shutdown : HostResult)
  | bech32Shutdown
  | loggingShutdown

namespace BridgeCall

open BridgeGlobals

/-- What a call returns, with the globals after it. The functions without a result do not fail. -/
def run : BridgeCall → BridgeGlobals → Bool × BridgeGlobals
  | .fxrInit runtimeconfig_path host, g => g.fxrInitFromRuntimeconfig runtimeconfig_path host
  | .bech32Init exe_dir host encode decode, g => g.btcsharpBech32Init exe_dir host encode decode
  | .loggingInit exe_dir host log shutdown, g => g.btcsharpLoggingInit exe_dir host log shutdown
  | .bech32Shutdown, g => (true, g.btcsharpBech32Shutdown)
  | .loggingShutdown, g => (true, g.btcsharpLoggingShutdown)

/-- The globals after calls, from the start of the process. -/
def runAll (calls : List BridgeCall) : BridgeGlobals :=
    calls.foldl (fun g call => (call.run g).2) {}

/-- A call that fails leaves the globals as they were. -/
def Atomic (call : BridgeCall) (g : BridgeGlobals) : Prop := (call.run g).1 = false →
    (call.run g).2 = g

/-- `fxr_init_from_runtimeconfig` succeeds, or fails where nothing is overwritten with something
else. -/
def InitUnwritten (runtimeconfig_path : List Char) (host : HostInit) (g : BridgeGlobals) : Prop :=
  runtimeconfig_path = [] ∨ 0 < g.g_refcount ∨
    match host.library with
    | .unavailable => True
    | .missingExports => g.lib_handle = none
    | .loaded lib =>
        if host.initialized.get = none then g.lib_handle = some lib ∧
          g.g_ctx = host.initialized.pointer
        else host.delegate.get = none → g.lib_handle = some lib ∧ g.g_ctx = none

/-- All functions that are looked up are found when the runtime was started. -/
def Found (started : Bool × BridgeGlobals) (loads : List HostResult) : Prop :=
  started.1 = true → ∀ load ∈ loads, started.2.fxrLoadUmco load ≠ none

/-- When a call leaves the globals as they were unless it succeeds. -/
def Unwritten : BridgeCall → BridgeGlobals → Prop
  | .fxrInit runtimeconfig_path host, g => InitUnwritten runtimeconfig_path host g
  | .bech32Init exe_dir host encode decode, g => InitUnwritten (rcfgPath exe_dir) host g ∧
      Found (g.fxrInitFromRuntimeconfig (rcfgPath exe_dir) host) [encode, decode]
  | .loggingInit exe_dir host log _, g => InitUnwritten (rcfgPath exe_dir) host g ∧
      Found (g.fxrInitFromRuntimeconfig (rcfgPath exe_dir) host) [log]
  | _, _ => True

theorem atomic_fxrInit (runtimeconfig_path : List Char) (host : HostInit) (g : BridgeGlobals) :
    Atomic (.fxrInit runtimeconfig_path host) g ↔ InitUnwritten runtimeconfig_path host g := by
  obtain ⟨count, _, _, _, _, _, _, _⟩ := g
  unfold Atomic InitUnwritten run fxrInitFromRuntimeconfig
  by_cases hpath : runtimeconfig_path = []
  · simp [hpath]
  by_cases hcount : 0 < count
  · simp [hpath, hcount]
  simp only [hpath, hcount]
  cases host.library with
  | unavailable => simp
  | missingExports => simp [eq_comm]
  | loaded lib =>
    by_cases hinitialized : host.initialized.get = none
    · simp [hinitialized, eq_comm]
    by_cases hdelegate : host.delegate.get = none
    · simp [hinitialized, hdelegate, eq_comm]
    · simp [hinitialized, hdelegate]

/-- A started runtime is counted. -/
theorem refcount_of_started {runtimeconfig_path : List Char} {host : HostInit}
    {g g' : BridgeGlobals}
    (h : g.fxrInitFromRuntimeconfig runtimeconfig_path host = (true, g')) :
      g'.g_refcount ≠ g.g_refcount := by
  unfold fxrInitFromRuntimeconfig at h
  split at h
  · cases h
  split at h
  · cases h
    show g.g_refcount + 1 ≠ g.g_refcount
    simp
  next hcount =>
  split at h
  · cases h
  · cases h
  split at h
  · cases h
  split at h
  · cases h
  cases h
  rintro (hone : 1 = g.g_refcount)
  exact hcount (hone ▸ by decide)

/-- What is done with the runtime succeeds when everything is found, and does not touch the count.
-/
theorem atomic_withRuntime {next : BridgeGlobals → Bool × BridgeGlobals} {loads : List HostResult}
    (hfound : ∀ g, (next g).1 = true ↔ ∀ load ∈ loads, g.fxrLoadUmco load ≠ none)
    (hcount : ∀ g, (next g).2.g_refcount = g.g_refcount) (exe_dir : List Char) (host : HostInit)
      (g : BridgeGlobals) :
    ((withRuntime exe_dir host next g).1 = false → (withRuntime exe_dir host next g).2 = g) ↔
      InitUnwritten (rcfgPath exe_dir) host g ∧
      Found (g.fxrInitFromRuntimeconfig (rcfgPath exe_dir) host) loads := by
  rw [← atomic_fxrInit]
  unfold Atomic Found run withRuntime
  dsimp only
  cases hinit : g.fxrInitFromRuntimeconfig (rcfgPath exe_dir) host with
  | mk started g' =>
    cases started with
    | false => simp
    | true =>
      have hchanged : (next g').2 ≠ g := by
        intro heq
        exact refcount_of_started hinit (by rw [← hcount, heq])
      simp only [hchanged, ← hfound]
      simp

theorem atomic_iff (call : BridgeCall) (g : BridgeGlobals) : call.Atomic g ↔ call.Unwritten g := by
  cases call with
  | fxrInit runtimeconfig_path host => exact atomic_fxrInit runtimeconfig_path host g
  | bech32Init exe_dir host encode decode =>
    apply atomic_withRuntime
    · intro g
      cases hencode : g.fxrLoadUmco encode <;> cases hdecode : g.fxrLoadUmco decode <;>
        simp [hencode, hdecode]
    · intro g
      cases g.fxrLoadUmco encode <;> cases g.fxrLoadUmco decode <;> rfl
  | loggingInit exe_dir host log shutdown =>
    apply atomic_withRuntime
    · intro g
      cases hlog : g.fxrLoadUmco log <;> simp [hlog]
    · intro g
      cases g.fxrLoadUmco log <;> rfl
  | bech32Shutdown | loggingShutdown => simp [Atomic, Unwritten, run]

/-- In a sequence of calls every failing one leaves the globals as they were if and only if every
call meets the condition where it is made. -/
theorem failures_atomic_iff (calls : List BridgeCall) :
    (∀ before call after, calls = before ++ call :: after → call.Atomic (runAll before)) ↔
      ∀ before call after, calls = before ++ call :: after → call.Unwritten (runAll before) := by
  simp [atomic_iff]

/-- The runtime is started, but `Encode` is not found. -/
theorem encode_not_found : ∃ call : BridgeCall, (call.run (runAll [])).1 = false ∧
    (call.run (runAll [])).2.g_refcount = 1 ∧ ¬ call.Atomic (runAll []) := by
  refine ⟨.bech32Init [] ⟨.loaded 1, ⟨0, some 2⟩, ⟨0, some 3⟩⟩ ⟨1, none⟩ ⟨0, some 4⟩, rfl, rfl, ?_⟩
  intro hatomic
  exact absurd (congrArg BridgeGlobals.g_refcount (hatomic rfl)) (by decide)

end BridgeCall

end BtcSharp
