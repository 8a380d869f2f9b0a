import Vmars.FixDetails

/-!
# The command line (`main.c`)

`main` collects its options in a loop over `getopt_long` and checks the configuration
that results.  The options are taken as `getopt_long` delivers them, one after the
other, each with its argument.

Every option has a field of its own, so the order should not matter.  But `case 'a'`
has no `break` and runs on into `case 'c'`: the affinity list is converted to a
number and becomes the capture port.  `orderFree_iff` says when that is seen.
-/

namespace Vmars

open CMemory

/-! ## The configuration -/

/-- `vmars_config_t`; a `char*` is the string it points to. -/
structure VmarsConfig where
  udpHost : Option (List UInt8)
  udpPort : Int
  capturePort : Int
  interfaces : Option (List UInt8)
  numThreads : Int
  affinity : Option (List UInt8)
  useHwTimestamps : Int
  deriving DecidableEq, Repr

/-- `set_default_config`: zeros, and an empty affinity list. -/
def setDefaultConfig : VmarsConfig where
  udpHost := none
  udpPort := 0
  capturePort := 0
  interfaces := none
  numThreads := 0
  affinity := some []
  useHwTimestamps := 0

/-- An option of `long_options` with its `optarg`, or another one. -/
inductive Opt where
  | interface (optarg : List UInt8)
  | numThreads (optarg : List UInt8)
  | affinity (optarg : List UInt8)
  | capturePort (optarg : List UInt8)
  | udpHost (optarg : List UInt8)
  | udpPort (optarg : List UInt8)
  | hardwareTimestamps
  | unknown
  deriving DecidableEq, Repr

/-- What `getopt_long` returns for an option. -/
def Opt.letter : Opt → Char
  | .interface _ => 'i'
  | .numThreads _ => 't'
  | .affinity _ => 'a'
  | .capturePort _ => 'c'
  | .udpHost _ => 'h'
  | .udpPort _ => 'p'
  | .hardwareTimestamps => 'H'
  | .unknown => '?'

/-! ## The option loop -/

/-- The statements from `case 'c'` to the next `break`. -/
def setCapturePort (config : VmarsConfig) (optarg : List UInt8) : VmarsConfig :=
  { config with capturePort := atoi optarg }

/-- The `switch` of `main` for an option that is known. -/
def setOption (config : VmarsConfig) : Opt → VmarsConfig
  | .interface optarg => { config with interfaces := some optarg }
  | .numThreads optarg => { config with numThreads := atoi optarg }
  -- there is no `break` in front of `case 'c'`
  | .affinity optarg => setCapturePort { config with affinity := some optarg } optarg
  | .capturePort optarg => setCapturePort config optarg
  | .udpHost optarg => { config with udpHost := some optarg }
  | .udpPort optarg => { config with udpPort := atoi optarg }
  | .hardwareTimestamps => { config with useHwTimestamps := 1 }
  | .unknown => config

/-- The loop of `main`; an option that is not known ends the program with the usage. -/
def optionLoop (config : VmarsConfig) : List Opt → Option VmarsConfig
  | [] => some config
  | opt :: opts => if opt = .unknown then none else optionLoop (setOption config opt) opts

/-- The checks of `main` behind the loop, with the line that it prints before the usage
when one of them fails. -/
def checkConfig (config : VmarsConfig) : Except String VmarsConfig :=
  if config.numThreads < 1 then .error "Number of threads must be positive\n"
  else if config.interfaces = none then .error "Must specify an interface or interfaces\n"
  else if config.capturePort = -1 then .error "Must specify a capture port\n"
  else if config.udpHost = none then .error "Must specify a udp host\n"
  else if config.udpPort = 0 then .error "Must specify a udp port\n"
  else .ok config

/-- The configuration that `main` works with: the usage alone, a check that failed, or a
configuration that passed them all. -/
def mainConfig (opts : List Opt) : Except String VmarsConfig :=
  match optionLoop setDefaultConfig opts with
  | none => .error ""
  | some config => checkConfig config

/-- What the checks establish, the configuration unchanged. -/
theorem checkConfig_ok {config config' : VmarsConfig} (h : checkConfig config = .ok config') :
    config' = config ∧ 1 ≤ config.numThreads ∧ config.interfaces ≠ none ∧
      config.capturePort ≠ -1 ∧ config.udpHost ≠ none ∧ config.udpPort ≠ 0 := by
  unfold checkConfig at h
  split at h
  · cases h
  next hthreads =>
  split at h
  · cases h
  next hinterfaces =>
  split at h
  · cases h
  next hport =>
  split at h
  · cases h
  next hhost =>
  split at h
  · cases h
  next hudp =>
  exact ⟨(Except.ok.inj h).symm, by omega, hinterfaces, hport, hhost, hudp⟩

/-- Known options are handled one after the other. -/
theorem optionLoop_eq {opts : List Opt} (hknown : Opt.unknown ∉ opts) (config : VmarsConfig) :
    optionLoop config opts = some (opts.foldl setOption config) := by
  induction opts generalizing config with
  | nil => rfl
  | cons opt opts ih =>
      rw [List.mem_cons, not_or] at hknown
      rw [optionLoop, if_neg (Ne.symm hknown.1), ih hknown.2, List.foldl_cons]

/-! ## Two options -/

/-- An affinity list and a capture port among the options are the same number. -/
def PortsAgree (opts : List Opt) : Prop :=
  ∀ a c, Opt.affinity a ∈ opts → Opt.capturePort c ∈ opts → atoi a = atoi c

/-- Different options may be exchanged, unless they disagree about the capture port. -/
theorem setOption_comm (config : VmarsConfig) {x y : Opt} (hletter : x.letter ≠ y.letter)
    (hports : PortsAgree [x, y]) :
    setOption (setOption config x) y = setOption (setOption config y) x := by
  cases x with
  | affinity a =>
      cases y with
      | affinity a' => exact absurd rfl hletter
      | capturePort c =>
          have hport := hports a c (by simp) (by simp)
          simp only [setOption, setCapturePort, hport]
      | _ => rfl
  | capturePort c =>
      cases y with
      | capturePort c' => exact absurd rfl hletter
      | affinity a =>
          have hport := hports a c (by simp) (by simp)
          simp only [setOption, setCapturePort, hport]
      | _ => rfl
  | _ => cases y <;> first | rfl | exact absurd rfl hletter

/-- Other options leave the capture port alone. -/
theorem foldl_capturePort {opts : List Opt} (haffinity : 'a' ∉ opts.map Opt.letter)
    (hport : 'c' ∉ opts.map Opt.letter) (config : VmarsConfig) :
    (opts.foldl setOption config).capturePort = config.capturePort := by
  induction opts generalizing config with
  | nil => rfl
  | cons opt opts ih =>
      rw [List.map_cons, List.mem_cons, not_or] at haffinity hport
      rw [List.foldl_cons, ih haffinity.2 hport.2]
      cases opt with
      | affinity a => exact absurd rfl haffinity.1
      | capturePort c => exact absurd rfl hport.1
      | _ => rfl

/-! ## Any order -/

/-- **The order of the options does not matter**: every other order of them gives the
same configuration. -/
def OrderFree (opts : List Opt) : Prop :=
  ∀ opts', opts'.Perm opts → optionLoop setDefaultConfig opts' = optionLoop setDefaultConfig opts

/-- **The order does not matter exactly while the affinity list and the capture port are
the same number**, for options of which none is given twice. -/
theorem orderFree_iff {opts : List Opt} (honce : (opts.map Opt.letter).Nodup)
    (hknown : Opt.unknown ∉ opts) : OrderFree opts ↔ PortsAgree opts := by
  have hloop : ∀ opts' : List Opt, opts'.Perm opts →
      optionLoop setDefaultConfig opts' = some (opts'.foldl setOption setDefaultConfig) := by
    intro opts' hperm
    exact optionLoop_eq (fun hmem => hknown (hperm.mem_iff.mp hmem)) _
  constructor
  · intro hfree a c ha hc
    obtain ⟨rest, hrest⟩ : ∃ rest, opts.Perm (.affinity a :: .capturePort c :: rest) := by
      have hmem : Opt.capturePort c ∈ opts.erase (.affinity a) :=
        (List.mem_erase_of_ne (by simp)).mpr hc
      exact ⟨_, (List.perm_cons_erase ha).trans ((List.perm_cons_erase hmem).cons _)⟩
    -- no other option writes the capture port
    have hletters := (hrest.map Opt.letter).nodup_iff.mp honce
    rw [List.map_cons, List.map_cons, List.nodup_cons, List.nodup_cons] at hletters
    have haffinity : 'a' ∉ rest.map Opt.letter := fun h =>
      hletters.1 (List.mem_cons_of_mem _ h)
    have hport : 'c' ∉ rest.map Opt.letter := hletters.2.1
    have hlast := hfree _ hrest.symm
    have hfirst := hfree _ ((List.Perm.swap _ _ rest).trans hrest.symm)
    rw [hloop _ hrest.symm] at hlast
    rw [hloop _ ((List.Perm.swap _ _ rest).trans hrest.symm), ← hlast, Option.some.injEq] at hfirst
    have hsame := congrArg VmarsConfig.capturePort hfirst
    rw [List.foldl_cons, List.foldl_cons, foldl_capturePort haffinity hport, List.foldl_cons,
      List.foldl_cons, foldl_capturePort haffinity hport] at hsame
    exact hsame
  · intro hports opts' hperm
    rw [hloop opts' hperm, hloop opts (.refl _)]
    congr 1
    refine hperm.foldl_eq' ?_ setDefaultConfig
    intro x hx y hy config
    by_cases hletter : x.letter = y.letter
    · have hxy : x = y := List.inj_on_of_nodup_map honce (hperm.mem_iff.mp hx)
        (hperm.mem_iff.mp hy) hletter
      rw [hxy]
    · apply setOption_comm config hletter
      intro a c ha hc
      have hsub : ∀ opt ∈ [x, y], opt ∈ opts := by
        intro opt hopt
        rcases List.mem_cons.mp hopt with rfl | hopt
        · exact hperm.mem_iff.mp hx
        · obtain rfl := List.mem_singleton.mp hopt
          exact hperm.mem_iff.mp hy
      exact hports a c (hsub _ ha) (hsub _ hc)

/-- The options of a run of the program. -/
def exampleOptions : List Opt :=
  [.interface (ascii "eth0"), .numThreads (ascii "2"), .affinity (ascii "80,81"),
    .capturePort (ascii "80"), .udpHost (ascii "127.0.0.1"), .udpPort (ascii "8125"),
    .hardwareTimestamps]

/-- The affinity list starts with the number of the port, so its place does not matter. -/
theorem orderFree_iff_exampleOptions : OrderFree exampleOptions := by
  refine (orderFree_iff (by decide) (by decide)).mpr fun a c ha hc => ?_
  have haffinity : a = ascii "80,81" := by simpa [exampleOptions] using ha
  have hport : c = ascii "80" := by simpa [exampleOptions] using hc
  rw [haffinity, hport]
  decide

/-- A port behind the affinity list is the capture port, a port in front of it is not. -/
theorem not_orderFree_affinity :
    ¬ OrderFree [.affinity (ascii "0,2"), .capturePort (ascii "9880")] := by
  intro h
  have hswapped := h [.capturePort (ascii "9880"), .affinity (ascii "0,2")] (List.Perm.swap _ _ [])
  revert hswapped
  decide

/-- Options that end in the same configuration pass the same checks. -/
theorem OrderFree.mainConfig_eq {opts opts' : List Opt} (h : OrderFree opts)
    (hperm : opts'.Perm opts) : mainConfig opts' = mainConfig opts := by
  rw [mainConfig, h opts' hperm, mainConfig]

end Vmars
