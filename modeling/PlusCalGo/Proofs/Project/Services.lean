import Mathlib.Tactic.ByContra
import PlusCalGo.Project.CommandLine
import PlusCalGo.Project.FileTree
import PlusCalGo.Proofs.Go.Functions

/-!
# State services of built programs

A program that locks through the state service connects to it with the endpoints and the timeout of
its configuration. They are checked where a configuration file is read, for the strategy that the
file names, and not where the command line replaces the strategy.
-/

namespace PlusCalGo

/-! ## Usable settings -/

namespace Go

/-- There is an endpoint to connect to, and a request may take a second at least. -/
def ServiceUsable (endpoints : List String) (timeout : UInt64) : Prop :=
  endpoints ≠ [] ∧ 1 ≤ timeout

theorem not_serviceUsable {endpoints : List String} {timeout : UInt64} :
    ¬ ServiceUsable endpoints timeout ↔ endpoints = [] ∨ timeout = 0 := by
  have htimeout : ¬ 1 ≤ timeout ↔ timeout = 0 := by
    rw [UInt64.le_iff_toNat_le, ← UInt64.toNat_inj]
    simp
  rw [ServiceUsable, not_and_or, not_not, htimeout]

end Go

open Go

private theorem ok_of_mapError {α β γ : Type} {result : Except α γ} {convert : α → β} {value : γ}
    (h : result.mapError convert = .ok value) : result = .ok value := by
  cases result with
  | error problem => cases h
  | ok found =>
    cases h
    rfl

namespace Config

variable {config : Config} {text : String} {directory : Path}

theorem check_ok {locking : LockingSection} (h : locking.check = .ok ())
    (hstrategy : locking.strategy = .coordinated) :
    ServiceUsable locking.endpoints locking.timeout := by
  by_contra hunusable
  rw [LockingSection.check, hstrategy] at h
  rcases not_serviceUsable.1 hunusable with hnone | hzero
  · simp [hnone] at h
  · by_cases hempty : locking.endpoints.isEmpty = true <;> simp [hempty, hzero] at h

/-- A file that names the coordinated strategy has usable settings. -/
theorem usable_of_ofToml (h : ofToml text directory = .ok config)
    (hstrategy : config.settings.locking = .coordinated) :
    ServiceUsable config.settings.endpoints config.settings.timeout := by
  obtain ⟨sections, _, h⟩ := ok_of_bind h
  cases hinput : sections.build.input with
  | none => simp [hinput, throw, throwThe, MonadExceptOf.throw] at h
  | some input =>
    by_cases hpackage : sections.build.package.isEmpty = true
    · simp [hinput, hpackage, throw, throwThe, MonadExceptOf.throw, bind, Except.bind] at h
    · simp only [hinput, hpackage] at h
      obtain ⟨_, hcheck, h⟩ := ok_of_bind h
      cases h
      exact check_ok hcheck hstrategy

theorem usable_forAlgorithm (input : Path) :
    ServiceUsable (forAlgorithm input).settings.endpoints
      (forAlgorithm input).settings.timeout := by
  have htimeout : (1 : UInt64) ≤ 3 := by decide
  exact ⟨List.cons_ne_nil _ _, htimeout⟩

end Config

/-! ## Actions of a host

The world is whatever the host keeps, and answers as it likes. -/

section Hosts

variable {World : Type} {α β : Type} {property : α → Prop} {result : β → Prop}

/-- In any world the action gives a value with the property. -/
def Gives (action : StateM World α) (property : α → Prop) : Prop :=
  ∀ world, property (action.run world).1

theorem run_bind (action : StateM World α) (next : α → StateM World β) (world : World) :
    (action >>= next).run world = (next (action.run world).1).run (action.run world).2 := rfl

theorem Gives.pure {value : α} (h : property value) :
    Gives (Pure.pure value : StateM World α) property := fun _ => h

theorem Gives.bind {action : StateM World α} {next : α → StateM World β}
    (h : ∀ value, Gives (next value) result) : Gives (action >>= next) result :=
  fun world => h (action.run world).1 (action.run world).2

variable [Host (StateM World)]

namespace Config

/-- A configuration comes from a file, or is that of an algorithm without one. -/
def HasSource (config : Config) : Prop :=
  (∃ text directory, ofToml text directory = .ok config) ∨ ∃ input, config = forAlgorithm input

theorem HasSource.usable {config : Config} (h : config.HasSource)
    (hstrategy : config.settings.locking = .coordinated) :
    ServiceUsable config.settings.endpoints config.settings.timeout := by
  rcases h with ⟨text, directory, h⟩ | ⟨input, rfl⟩
  · exact usable_of_ofToml h hstrategy
  · exact usable_forAlgorithm input

theorem gives_load (path : Path) :
    Gives (load path : StateM World _) fun result => ∀ config, result = .ok config →
      config.HasSource := by
  apply Gives.bind
  rintro (failure | text)
  · exact Gives.pure nofun
  · apply Gives.pure
    intro config h
    exact .inl ⟨text, path.parent, ok_of_mapError h⟩

theorem gives_ofEntry (entry : String) :
    Gives (ofEntry entry : StateM World _) fun result => ∀ config, result = .ok config →
      config.HasSource := by
  unfold ofEntry
  generalize (⟨if entry.isEmpty then configFileName else entry⟩ : Path) = path
  apply Gives.bind
  intro isDirectory
  split
  · exact gives_load _
  apply Gives.bind
  intro isPresent
  split
  · exact Gives.pure nofun
  split
  · exact gives_load _
  split
  · apply Gives.pure
    rintro config ⟨⟩
    exact .inr ⟨path, rfl⟩
  · exact Gives.pure nofun

theorem gives_compile (config : Config) (hidden : Hidden) :
    Gives (config.compile hidden : StateM World _) fun result => ∀ compiled, result = .ok compiled →
      ∃ text, config.compileInput hidden text = .ok compiled := by
  apply Gives.bind
  rintro (failure | text)
  · exact Gives.pure nofun
  · exact Gives.pure fun compiled h => ⟨text, h⟩

/-- A program has the service of its settings, if these are coordinated. -/
theorem locks_of_compileInput {config : Config} {hidden : Hidden} {text : String}
    {compiled : Compiled} (h : config.compileInput hidden text = .ok compiled) :
    ((∃ setup, compiled.program.locks = .service setup) ↔
      config.settings.locking = .coordinated) ∧
    ∀ setup, compiled.program.locks = .service setup →
      setup.endpoints = config.settings.endpoints ∧
        setup.timeout = config.settings.timeout := by
  obtain ⟨made, hmade, h⟩ := ok_of_bind h
  cases h
  obtain ⟨algorithm, _, hmade⟩ := ok_of_bind (ok_of_mapError hmade)
  obtain ⟨definitions, _, hmade⟩ := ok_of_bind hmade
  obtain ⟨atomicity, _, hmade⟩ := ok_of_bind hmade
  obtain ⟨program, hprogram, hmade⟩ := ok_of_bind hmade
  cases hmade
  obtain ⟨_, _, _, _, _, hlocks, _⟩ := Algorithm.toGo_parts hprogram
  unfold Algorithm.lockHome at hlocks
  cases hlocking : config.settings.locking with
  | inProcess =>
    rw [hlocking] at hlocks
    have hlocks := Except.ok.inj hlocks
    simp [← hlocks]
  | coordinated =>
    rw [hlocking] at hlocks
    obtain ⟨globals, _, hlocks⟩ := ok_of_bind hlocks
    have hlocks := Except.ok.inj hlocks
    simp [← hlocks]

end Config

/-! ## Builds -/

namespace Command

open Host

variable {entry : String} {overrides : Config.Overrides} {hidden : Hidden} {world : World}
  {config : Config} {compiled : Compiled}

/-- The world once a build has told what it compiles. -/
def announced (config : Config) (world : World) : World :=
  ((printLines ["", "Compiling " ++ config.input.text] : StateM World Unit).run world).2

/-- What a build reads and makes in a world, if it comes as far as a program: the configuration that
the entry names, and the program under this configuration with the overrides. -/
def built? (entry : String) (overrides : Config.Overrides) (hidden : Hidden) (world : World) :
    Option (Config × Compiled) :=
  let started := (clock : StateM World Nat).run world
  let entered := (Config.ofEntry entry : StateM World _).run started.2
  match entered.1 with
  | .error _ => none
  | .ok config =>
    let final := config.override overrides
    match ((final.compile hidden : StateM World _).run (announced final entered.2)).1 with
    | .error _ => none
    | .ok compiled => some (config, compiled)

/-- A project that compiles is written, and its errors are those of writing it. -/
theorem errors_of_compile {started : Nat}
    (h : ((config.compile hidden : StateM World _).run (announced config world)).1 =
      .ok compiled) :
    ∃ made : World, ((buildProject config hidden started : StateM World _).run world).1.errors =
      match ((Config.writeProgram config.output compiled.program.render :
        StateM World _).run made).1 with
      | .ok () => []
      | .error error => [error] := by
  obtain ⟨made, hmade⟩ : ∃ made, (config.compile hidden : StateM World _).run
      (announced config world) = (.ok compiled, made) := ⟨_, Prod.ext h rfl⟩
  refine ⟨made, ?_⟩
  unfold announced at hmade
  simp only [buildProject, run_bind, hmade]
  cases ((Config.writeProgram config.output compiled.program.render :
    StateM World _).run made).1 with
  | error error => rfl
  | ok written => cases hidden.timers <;> rfl

/-- A build that comes as far as a program writes it. -/
theorem errors_of_built? (h : built? entry overrides hidden world = some (config, compiled)) :
    ∃ made : World, ((buildEntry entry overrides hidden : StateM World _).run world).1.errors =
      match ((Config.writeProgram (config.override overrides).output compiled.program.render :
        StateM World _).run made).1 with
      | .ok () => []
      | .error error => [error] := by
  unfold built? at h
  simp only at h
  split at h
  · cases h
  · rename_i read hread
    split at h
    · cases h
    · rename_i made hmade
      cases h
      simp only [buildEntry, run_bind, hread]
      exact errors_of_compile hmade

/-- A build without errors comes as far as a program. -/
theorem isSome_built?
    (h : ((buildEntry entry overrides hidden : StateM World _).run world).1.errors = []) :
    (built? entry overrides hidden world).isSome := by
  unfold built?
  simp only
  split
  · rename_i error hread
    simp only [buildEntry, run_bind, hread] at h
    exact absurd h (List.cons_ne_nil error [])
  · rename_i config hread
    split
    · rename_i error hmade
      unfold announced at hmade
      simp only [buildEntry, buildProject, run_bind, hread, hmade] at h
      exact absurd h (List.cons_ne_nil error [])
    · rfl

theorem source_of_built? (h : built? entry overrides hidden world = some (config, compiled)) :
    config.HasSource ∧
      ∃ text, (config.override overrides).compileInput hidden text = .ok compiled := by
  unfold built? at h
  simp only at h
  split at h
  · cases h
  · rename_i read hread
    split at h
    · cases h
    · rename_i made hmade
      cases h
      exact ⟨Config.gives_ofEntry entry _ _ hread, Config.gives_compile _ hidden _ _ hmade⟩

/-- The endpoints and the timeout of a program are those of the configuration, whatever chooses the
strategy. So they are usable unless a file that names the local strategy lacks one of them, and the
command line makes the strategy coordinated. -/
theorem services_of_build (h : built? entry overrides hidden world = some (config, compiled)) :
    (∃ made : World, ((buildEntry entry overrides hidden : StateM World _).run world).1.errors =
      match ((Config.writeProgram (config.override overrides).output compiled.program.render :
        StateM World _).run made).1 with
      | .ok () => []
      | .error error => [error]) ∧
    ((∃ setup, compiled.program.locks = .service setup) ↔
      config.settings.locking = .coordinated ∨ overrides.coordinated = true) ∧
    ∀ setup, compiled.program.locks = .service setup →
      setup.endpoints = config.settings.endpoints ∧ setup.timeout = config.settings.timeout ∧
      ((∃ input, config = .forAlgorithm input) → ServiceUsable setup.endpoints setup.timeout) ∧
      (¬ ServiceUsable setup.endpoints setup.timeout ↔
        config.settings.locking = .inProcess ∧ overrides.coordinated = true ∧
          (config.settings.endpoints = [] ∨ config.settings.timeout = 0)) := by
  obtain ⟨hsource, text, hcompile⟩ := source_of_built? h
  refine ⟨errors_of_built? h, ?_⟩
  have hforce : (config.override overrides).settings.locking = .coordinated ↔
      config.settings.locking = .coordinated ∨ overrides.coordinated = true := by
    cases hoverride : overrides.coordinated <;> simp [Config.override, hoverride]
  obtain ⟨hservice, hsetup⟩ := Config.locks_of_compileInput hcompile
  rw [hservice, hforce]
  refine ⟨Iff.rfl, ?_⟩
  intro setup hlocks
  obtain ⟨hendpoints, htimeout⟩ := hsetup setup hlocks
  have hforced := hforce.1 (hservice.1 ⟨setup, hlocks⟩)
  rw [hendpoints, htimeout]
  refine ⟨rfl, rfl, ?_, ?_⟩
  · rintro ⟨input, rfl⟩
    exact Config.usable_forAlgorithm input
  · constructor
    · intro hunusable
      have hnamed : config.settings.locking ≠ .coordinated := fun hnamed =>
        hunusable (hsource.usable hnamed)
      refine ⟨?_, hforced.resolve_left hnamed, not_serviceUsable.1 hunusable⟩
      cases hlocking : config.settings.locking with
      | inProcess => rfl
      | coordinated => exact absurd hlocking hnamed
    · rintro ⟨_, _, hmissing⟩
      exact not_serviceUsable.2 hmissing

end Command

end Hosts

/-! ## A file without endpoints

The file of the first project names the local strategy and no endpoint, and the second project is an
algorithm alone. -/

namespace Command

private def algorithmText : String :=
  "\x7b\"name\":\"T\",\"constants\":[],\"variables\":[],\"procedures\":[],\"processes\":[]\x7d"

private def unserved : Workspace :=
  ⟨⟨[(["pgo.toml".toList], .file "[build]\ninput = \"a.json\"\n[locking]\nendpoints = []\n"),
    (["a.json".toList], .file algorithmText)]⟩, ⟨"/work"⟩, ""⟩

private def alone : Workspace := ⟨⟨[(["a.json".toList], .file algorithmText)]⟩, ⟨"/work"⟩, ""⟩

theorem services_of_build_alone :
    ∃ config compiled, built? "a.json" ⟨true, none⟩ ⟨false, false⟩ alone = some (config, compiled) ∧
      config.settings.locking = .inProcess ∧ ∃ setup, compiled.program.locks = .service setup ∧
        ServiceUsable setup.endpoints setup.timeout := by
  have hbuilt : (built? "a.json" ⟨true, none⟩ ⟨false, false⟩ alone).any (fun (config, _) =>
      config = .forAlgorithm ⟨"a.json"⟩) = true := by decide +kernel
  obtain ⟨⟨config, compiled⟩, hbuilt, hconfig⟩ := (Option.any_eq_true _ _).1 hbuilt
  obtain rfl := of_decide_eq_true hconfig
  obtain ⟨_, hservice, hsetups⟩ := services_of_build hbuilt
  obtain ⟨setup, hsetup⟩ := hservice.2 (.inr rfl)
  exact ⟨_, compiled, hbuilt, rfl, setup, hsetup, (hsetups setup hsetup).2.2.1 ⟨_, rfl⟩⟩

theorem service_without_endpoint :
    ∃ config compiled setup,
      built? "" ⟨true, none⟩ ⟨false, false⟩ unserved = some (config, compiled) ∧
        compiled.program.locks = .service setup ∧ setup.endpoints = [] ∧
        ¬ ServiceUsable setup.endpoints setup.timeout := by
  have hbuilt : (built? "" ⟨true, none⟩ ⟨false, false⟩ unserved).any (fun (_, compiled) =>
      compiled.program.locks = .service ⟨[], 3, []⟩) = true := by decide +kernel
  obtain ⟨⟨config, compiled⟩, hbuilt, hlocks⟩ := (Option.any_eq_true _ _).1 hbuilt
  exact ⟨config, compiled, _, hbuilt, of_decide_eq_true hlocks, rfl, fun husable => husable.1 rfl⟩

end Command

end PlusCalGo
