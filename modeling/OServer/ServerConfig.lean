/-
  OServer/ServerConfig.lean
  =========================
  **The command line (`server_config_read`), and the port as text.**

  The answers of `getopt_long` are taken one after the other.  `server_listen` writes the
  port that is left into an array of ten bytes, for `getaddrinfo`.

    * `serverConfigRead_eq`   — the last port and the last root that exists count;
    * `serverConfigRead_port` — which texts are ports, and which ports fit.
-/
import OServer.Lib.Decimal

namespace OServer

open CString

/-! ## 1. Reading the options -/

/-- `O_SERVER_DEFAULT_PORT` -/
def oServerDefaultPort : Int := 8080

structure ServerConfig where
  numRegularThreads : Nat
  numMaxThreads : Nat
  numMaxConnections : Nat
  port : Int
  backlog : Nat
  staleConnectionTimeoutSec : Nat
  root : List UInt8
deriving DecidableEq

/-- What `getopt_long` returns before its `-1`, with `optarg`. -/
inductive ConfigOpt where
  | port (optarg : List UInt8)
  | root (optarg : List UInt8)
  | help
  /-- an option that `optLongTable` does not have, or one without its argument -/
  | unknown
deriving DecidableEq

/-- The directories.  `realpath` is that of a path for which `stat` returns 0. -/
structure Directories where
  stat : List UInt8 → Bool
  realpath : List UInt8 → List UInt8
  getcwd : List UInt8

/-- A `long` in an `int`. -/
def ofLong (v : Int) : Int := v.bmod (2 ^ 32)

section Read
variable (dirs : Directories)

/-- The body of the loop over the options, with `tmp`; `none` is `return 1`. -/
def configOpt (cfg : ServerConfig × Option (List UInt8)) :
    ConfigOpt → Option (ServerConfig × Option (List UInt8))
  | .port optarg =>
      let r := strtol (cstr optarg)
      some ({ cfg.1 with port := ofLong r.1 }, some r.2)
  | .root optarg =>
      if dirs.stat optarg then some ({ cfg.1 with root := dirs.realpath optarg }, cfg.2) else some cfg
  | .help => none
  | .unknown => none

/-- `server_config_read`; `none` is `return 1`.  `cfg` is not initialised. -/
def serverConfigRead (cfg : ServerConfig) (opts : List ConfigOpt) : Option ServerConfig := do
  let r ← opts.foldlM (configOpt dirs) ({ cfg with root := [] }, none)
  let port := match r.2 with
    | none => oServerDefaultPort
    | some tmp => if peek tmp ≠ NUL then oServerDefaultPort else r.1.port
  some {
    numRegularThreads := 10
    numMaxThreads := 20
    numMaxConnections := 1024
    port := port
    backlog := 50
    staleConnectionTimeoutSec := 120
    root := if r.1.root = [] then dirs.getcwd else r.1.root }

/-- `char service[10]` -/
def serviceSize : Nat := 10

/-- `sprintf(service, "%d", srv->config.port)`. -/
def service (port : Int) : List UInt8 := bytes (toString port) ++ [NUL]

/-! ## 2. What counts -/

def ConfigOpt.port? : ConfigOpt → Option (List UInt8)
  | .port optarg => some (cstr optarg)
  | _ => none

/-- A root is taken if it exists. -/
def ConfigOpt.root? : ConfigOpt → Option (List UInt8)
  | .root optarg => if dirs.stat optarg then some (dirs.realpath optarg) else none
  | _ => none

def lastPort (opts : List ConfigOpt) : Option (List UInt8) :=
  (opts.filterMap ConfigOpt.port?).getLast?

def lastRoot (opts : List ConfigOpt) : Option (List UInt8) :=
  (opts.filterMap (ConfigOpt.root? dirs)).getLast?

/-- A port is taken if its text is read to the end. -/
def portOf : Option (List UInt8) → Int
  | none => oServerDefaultPort
  | some arg => if (strtol arg).2 = [] then ofLong (strtol arg).1 else oServerDefaultPort

def rootOf : Option (List UInt8) → List UInt8
  | none => dirs.getcwd
  | some root => if root = [] then dirs.getcwd else root

def ConfigOpt.stops : ConfigOpt → Bool
  | .help | .unknown => true
  | _ => false

variable {dirs}

/-- **The loop over the options**: what counts of the rest, or else what there was. -/
theorem foldlM_configOpt (opts : List ConfigOpt) (cfg : ServerConfig) (tmp : Option (List UInt8)) :
    opts.foldlM (configOpt dirs) (cfg, tmp) =
      if opts.any ConfigOpt.stops then none
      else some ({ cfg with
          port := ((lastPort opts).map fun arg => ofLong (strtol arg).1).getD cfg.port
          root := (lastRoot dirs opts).getD cfg.root },
        ((lastPort opts).map fun arg => (strtol arg).2).or tmp) := by
  induction opts generalizing cfg tmp with
  | nil => rfl
  | cons opt opts ih =>
    have hport : ∀ arg, lastPort (.port arg :: opts) = some ((lastPort opts).getD (cstr arg)) :=
      fun arg => List.getLast?_cons
    rw [List.foldlM_cons, List.any_cons]
    cases opt with
    | port optarg =>
      have hroot : lastRoot dirs (.port optarg :: opts) = lastRoot dirs opts := rfl
      have hstops : ConfigOpt.stops (.port optarg) = false := rfl
      simp only [configOpt, Option.bind_eq_bind, Option.bind_some, ih, hport, hroot, hstops,
        Bool.false_or]
      cases lastPort opts <;> rfl
    | root optarg =>
      have hsame : lastPort (.root optarg :: opts) = lastPort opts := rfl
      have hstops : ConfigOpt.stops (.root optarg) = false := rfl
      by_cases hstat : dirs.stat optarg = true
      · have hroot : lastRoot dirs (.root optarg :: opts) =
            some ((lastRoot dirs opts).getD (dirs.realpath optarg)) := by
          rw [lastRoot, List.filterMap_cons_some (by rw [ConfigOpt.root?, if_pos hstat])]
          exact List.getLast?_cons
        simp only [configOpt, if_pos hstat, Option.bind_eq_bind, Option.bind_some, ih, hsame, hroot,
          hstops, Bool.false_or]
        cases lastRoot dirs opts <;> rfl
      · have hroot : lastRoot dirs (.root optarg :: opts) = lastRoot dirs opts := by
          rw [lastRoot, List.filterMap_cons_none (by rw [ConfigOpt.root?, if_neg hstat])]
          rfl
        simp only [configOpt, if_neg hstat, Option.bind_eq_bind, Option.bind_some, ih, hsame, hroot,
          hstops, Bool.false_or]
    | help => rfl
    | unknown => rfl

/-- `tmp` is in a C string. -/
theorem peek_strtol (arg : List UInt8) :
    peek (strtol (cstr arg)).2 = NUL ↔ (strtol (cstr arg)).2 = [] := by
  have hsub : ∀ b ∈ (strtol (cstr arg)).2, b ≠ NUL := by
    intro b hb
    have hmem : b ∈ cstr arg := by
      rcases strtol_cases (cstr arg) with hnone | ⟨t, -, htext⟩
      · rwa [hnone] at hb
      · rw [htext]
        exact List.mem_append_right _ hb
    simpa using List.mem_takeWhile_imp hmem
  cases hrest : (strtol (cstr arg)).2 with
  | nil => exact iff_of_true rfl rfl
  | cons c rest =>
    rw [hrest] at hsub
    exact iff_of_false (hsub c List.mem_cons_self) (List.cons_ne_nil _ _)

/-- An argument that counts is a C string. -/
theorem lastPort_cstr {opts : List ConfigOpt} {arg : List UInt8} (h : lastPort opts = some arg) :
    ∃ optarg, arg = cstr optarg := by
  obtain ⟨opt, -, hopt⟩ := List.mem_filterMap.mp (List.mem_of_getLast? h)
  cases opt with
  | port optarg => exact ⟨optarg, (Option.some.inj hopt).symm⟩
  | _ => cases hopt

/-- **What `server_config_read` reads**: nothing if it is asked for help or does not know an option,
    and else the last port and the last root that exists. -/
theorem serverConfigRead_eq (cfg : ServerConfig) (opts : List ConfigOpt) :
    serverConfigRead dirs cfg opts =
      if opts.any ConfigOpt.stops then none
      else some {
        numRegularThreads := 10
        numMaxThreads := 20
        numMaxConnections := 1024
        port := portOf (lastPort opts)
        backlog := 50
        staleConnectionTimeoutSec := 120
        root := rootOf dirs (lastRoot dirs opts) } := by
  rw [serverConfigRead, foldlM_configOpt]
  by_cases hstops : opts.any ConfigOpt.stops = true
  · rw [if_pos hstops, if_pos hstops]
    rfl
  · rw [if_neg hstops, if_neg hstops]
    simp only [Option.bind_eq_bind, Option.bind_some, Option.some.injEq, ServerConfig.mk.injEq,
      true_and]
    refine ⟨?_, ?_⟩
    · cases hport : lastPort opts with
      | none => rfl
      | some arg =>
        obtain ⟨optarg, rfl⟩ := lastPort_cstr hport
        have hpeek := peek_strtol optarg
        by_cases hend : (strtol (cstr optarg)).2 = []
        · have hnul : ¬peek (strtol (cstr optarg)).2 ≠ NUL := not_not.mpr (hpeek.mpr hend)
          simp only [Option.map_some, Option.some_or, Option.getD_some, if_neg hnul, portOf, if_pos hend]
        · have hne : peek (strtol (cstr optarg)).2 ≠ NUL := fun h => hend (hpeek.mp h)
          simp only [Option.map_some, Option.some_or, if_pos hne, portOf, if_neg hend]
    · cases lastRoot dirs opts <;> rfl

/-- The text of a port is written within the array if it has one sign and eight digits, or nine. -/
theorem service_fits (port : Int) :
    (service port).length ≤ serviceSize ↔ -99999999 ≤ port ∧ port ≤ 999999999 := by
  rw [service, List.length_append, serviceSize, List.length_singleton]
  have hlen := length_toString_le_iff port (by decide : 0 < 8)
  omega

example : (service (portOf (some (bytes "1234567890")))).length = 11 := by decide

end Read

end OServer
