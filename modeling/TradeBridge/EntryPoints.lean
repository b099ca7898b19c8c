import Mathlib.Data.List.DropRight
import TradeBridge.Hooks
import TradeBridge.Startup

/-!
# The entry points of `dllmain.cpp` in any order

The server calls `MtSrvStartup`, `MtSrvCleanup` and the hooks (`dllmain.cpp:42-123`) in an order of
its own. Two globals outlive a call: `mt4logger`, which `MtSrvStartup` makes before its first
failure exit, and `mt4plugin`, which it sets after the last one. The hooks test `mt4plugin`;
`MtSrvCleanup` tests nothing and uses `mt4logger`.

A call that dereferences a null pointer is `none`. What the plugin's own threads do between two
calls changes neither pointer and is left out, and so is the destruction of a plugin, of which only
the null pointer is kept.

Results:
* `LoadedDll.call_pointers`: what a call does to the two pointers.
* `LoadedDll.run_pointers`: after any calls, the logger is there iff a server was passed to
  `MtSrvStartup` since the last `MtSrvCleanup`, and the plugin iff one of these calls succeeded.
* **`safeCalls_iff`**: the calls are safe exactly where each `MtSrvCleanup` finds such a server and
  no `MtSrvStartup` fails while a plugin is there.
* `a_cleanup_without_startup_is_unsafe`: the two shortest sequences that are not safe.
-/

namespace TradeBridge

open TradeBridge.Lib

/-! ## The calls -/

/-- `PluginCfg`, without `reserved`, which nothing reads. -/
structure PluginCfg where
  name : CStr 32
  value : CStr 128

/-- The text logged for it. -/
def PluginCfg.text (cfg : PluginCfg) : Bytes :=
  bytes "Setting plugin configuration: " ++ cfg.name.text ++ bytes " = " ++ cfg.value.text

/-- The library in the server's process: the globals, with `mt4logger` not null or null. The logger
never holds a null server. -/
structure LoadedDll extends Dll where
  mt4logger : Bool

/-- What a call returns: an `int`, nothing, or an exception. -/
inductive Returned
  | int (value : Bool)
  | nothing
  | threw
  deriving DecidableEq

/-- A call of an entry point; a null pointer is `none`. -/
inductive HookCall
  | mtSrvStartup (server : Option Outside)
  | mtSrvCleanup
  /-- The first `total` of `values`. -/
  | mtSrvPluginCfgSet (values : List PluginCfg)
  | mtSrvGroupsAdd (group : Option ConGroup)
  | mtSrvSymbolsAdd (symbol : Option ConSymbol)
  /-- `status` is what NATS answers to the publish. -/
  | mtSrvHistoryTickApply (tick : Option FeedTick) (status : NatsStatus)

/-- `m_pool->detach_task` of each. -/
def Plugin.detach (p : Plugin) (tasks : List Task) : Plugin :=
  { p with pool := tasks.foldl Pool.detachTask p.pool }

namespace LoadedDll

/-- Before the first call. -/
def unloaded : LoadedDll := ⟨⟨none, []⟩, false⟩

/-- `mt4logger->log_info`. -/
def logInfo (d : LoadedDll) (text : Bytes) : Option LoadedDll :=
  if d.mt4logger then some { d with logs := d.logs ++ [.info text] } else none

/-- `MtSrvStartup`. The logger is made as soon as the server is not null. -/
def mtSrvStartup (d : LoadedDll) (server : Option Outside) : LoadedDll × Bool :=
  ({ toDll := (d.toDll.mtSrvStartup server).1, mt4logger := d.mt4logger || server.isSome },
    (d.toDll.mtSrvStartup server).2)

/-- `MtSrvCleanup`. -/
def mtSrvCleanup (d : LoadedDll) : Option LoadedDll :=
  (d.logInfo (bytes "Unloading plugin, cleaning up resources")).map fun d =>
    { d with mt4plugin := none, mt4logger := false }

/-- `MtSrvPluginCfgSet`. -/
def mtSrvPluginCfgSet (d : LoadedDll) (values : List PluginCfg) : Option LoadedDll :=
  if d.mt4plugin.isSome then
    values.foldlM (fun d cfg => d.logInfo cfg.text) d
  else some d

/-- `MtSrvGroupsAdd`. -/
def mtSrvGroupsAdd (d : LoadedDll) (group : Option ConGroup) : LoadedDll :=
  { d with mt4plugin := d.mt4plugin.map fun p => p.detach (handleGroup group) }

/-- `MtSrvSymbolsAdd`. -/
def mtSrvSymbolsAdd (d : LoadedDll) (symbol : Option ConSymbol) : LoadedDll :=
  { d with mt4plugin := d.mt4plugin.map fun p => p.detach (handleSymbol symbol) }

/-- `MtSrvHistoryTickApply`; the second component says that an exception left it. -/
def mtSrvHistoryTickApply (d : LoadedDll) (tick : Option FeedTick) (status : NatsStatus) :
    LoadedDll × Bool :=
  match d.mt4plugin with
  | none => (d, false)
  | some p =>
    let r := p.pool.shared.handleTick status tick
    ({ d with mt4plugin := some { p with pool := { p.pool with shared := r.1 } } }, r.2)

/-- One call. -/
def call (d : LoadedDll) : HookCall → Option (LoadedDll × Returned)
  | .mtSrvStartup server => some ((d.mtSrvStartup server).1, .int (d.mtSrvStartup server).2)
  | .mtSrvCleanup => d.mtSrvCleanup.map fun d => (d, .nothing)
  | .mtSrvPluginCfgSet values => (d.mtSrvPluginCfgSet values).map fun d => (d, .int true)
  | .mtSrvGroupsAdd group => some (d.mtSrvGroupsAdd group, .int true)
  | .mtSrvSymbolsAdd symbol => some (d.mtSrvSymbolsAdd symbol, .int true)
  | .mtSrvHistoryTickApply tick status =>
    some ((d.mtSrvHistoryTickApply tick status).1,
      if (d.mtSrvHistoryTickApply tick status).2 then .threw else .nothing)

/-- The calls of a list, one after the other. -/
def run (d : LoadedDll) (calls : List HookCall) : Option LoadedDll :=
  calls.foldlM (fun d c => (d.call c).map Prod.fst) d

end LoadedDll

/-! ## What the property and its condition say -/

/-- The call is one of `MtSrvStartup` and `MtSrvCleanup`. -/
def HookCall.loads : HookCall → Bool
  | .mtSrvStartup _ | .mtSrvCleanup => true
  | _ => false

/-- The most recent call of `MtSrvStartup` and `MtSrvCleanup` is an `MtSrvStartup` that returned
`TRUE`. -/
def LastReturnedTrue (calls : List HookCall) : Prop :=
  ∃ before server rest d d', calls = before ++ .mtSrvStartup server :: rest ∧
    (∀ c ∈ rest, c.loads = false) ∧ LoadedDll.unloaded.run before = some d ∧
    d.call (.mtSrvStartup server) = some (d', .int true)

/-- No call dereferences a null pointer, and after each of them there is a plugin exactly if the
last startup says so. -/
def SafeCalls (calls : List HookCall) : Prop :=
  ∀ before, before <+: calls → ∃ d, LoadedDll.unloaded.run before = some d ∧
    (d.mt4plugin.isSome = true ↔ LastReturnedTrue before)

/-- The server's version is the expected one and `initialize` returns a plugin for it. -/
def starts : Option Outside → Bool
  | none => false
  | some o => o.version == serverApiVersion && (initializePlugin o pluginInfoName).isOk

/-- The calls after the last `MtSrvCleanup`. -/
def sinceCleanup (calls : List HookCall) : List HookCall :=
  calls.rtakeWhile fun
    | .mtSrvCleanup => false
    | _ => true

/-- Since the last `MtSrvCleanup` a server was passed to `MtSrvStartup`. -/
def serverSeen (calls : List HookCall) : Bool :=
  (sinceCleanup calls).any fun
    | .mtSrvStartup server => server.isSome
    | _ => false

/-- Since the last `MtSrvCleanup` there was an `MtSrvStartup` for a server that starts. -/
def started (calls : List HookCall) : Bool :=
  (sinceCleanup calls).any fun
    | .mtSrvStartup server => starts server
    | _ => false

/-- Each `MtSrvCleanup` comes after a server was seen, and no `MtSrvStartup` of a server that does
not start comes after one that did, each since the last `MtSrvCleanup`. -/
structure OrderedCalls (calls : List HookCall) : Prop where
  cleanup : ∀ before rest, calls = before ++ .mtSrvCleanup :: rest → serverSeen before = true
  startup : ∀ before server rest, calls = before ++ .mtSrvStartup server :: rest →
    starts server = false → started before = false

/-! ## One call -/

/-- `MtSrvStartup` returns `TRUE` for a server that starts, and installs a plugin then. -/
theorem Dll.mtSrvStartup_starts (d : Dll) (server : Option Outside) :
    (d.mtSrvStartup server).2 = starts server ∧
      (d.mtSrvStartup server).1.mt4plugin.isSome = (d.mt4plugin.isSome || starts server) := by
  cases server with
  | none => exact ⟨rfl, (Bool.or_false _).symm⟩
  | some o =>
    unfold Dll.mtSrvStartup starts
    dsimp only
    by_cases hv : o.version = serverApiVersion
    · rw [if_neg (not_not_intro hv), beq_iff_eq.mpr hv]
      cases initializePlugin o pluginInfoName with
      | error e => exact ⟨rfl, (Bool.or_false _).symm⟩
      | ok p => exact ⟨rfl, (Bool.or_true _).symm⟩
    · rw [if_pos hv, beq_eq_false_iff_ne.mpr hv]
      exact ⟨rfl, (Bool.or_false _).symm⟩

namespace LoadedDll

variable {d d' : LoadedDll} {c : HookCall} {r : Returned}

theorem logInfo_eq_some {text : Bytes} (h : d.logInfo text = some d') :
    d.mt4logger = true ∧ d'.mt4logger = d.mt4logger ∧ d'.mt4plugin = d.mt4plugin := by
  unfold logInfo at h
  split at h
  · rename_i hlog
    obtain rfl := Option.some.inj h
    exact ⟨hlog, rfl, rfl⟩
  · cases h

theorem logInfo_isSome (h : d.mt4logger = true) (text : Bytes) : ∃ d', d.logInfo text = some d' :=
  ⟨_, if_pos h⟩

/-- Entries of the log change neither pointer. -/
theorem foldlM_logInfo : ∀ (values : List PluginCfg) {d d' : LoadedDll},
    values.foldlM (fun d cfg => d.logInfo cfg.text) d = some d' →
    d'.mt4logger = d.mt4logger ∧ d'.mt4plugin = d.mt4plugin
  | [], _, _, h => by
    obtain rfl := Option.some.inj h
    exact ⟨rfl, rfl⟩
  | cfg :: values, d, _, h => by
    obtain ⟨d₁, hlog, hrest⟩ := Option.bind_eq_some_iff.mp h
    obtain ⟨-, hl, hp⟩ := logInfo_eq_some hlog
    obtain ⟨hl', hp'⟩ := foldlM_logInfo values hrest
    exact ⟨hl'.trans hl, hp'.trans hp⟩

theorem foldlM_logInfo_isSome : ∀ (values : List PluginCfg) {d : LoadedDll},
    d.mt4logger = true → ∃ d', values.foldlM (fun d cfg => d.logInfo cfg.text) d = some d'
  | [], d, _ => ⟨d, rfl⟩
  | cfg :: values, d, h => by
    obtain ⟨d₁, hlog⟩ := logInfo_isSome h cfg.text
    obtain ⟨d', hd'⟩ := foldlM_logInfo_isSome values ((logInfo_eq_some hlog).2.1.trans h)
    exact ⟨d', Option.bind_eq_some_iff.mpr ⟨d₁, hlog, hd'⟩⟩

theorem call_startup {server : Option Outside}
    (h : d.call (.mtSrvStartup server) = some (d', r)) : r = .int (starts server) ∧
      d'.mt4logger = (d.mt4logger || server.isSome) ∧
      d'.mt4plugin.isSome = (d.mt4plugin.isSome || starts server) := by
  obtain ⟨rfl, rfl⟩ := Prod.mk.inj (Option.some.inj h)
  obtain ⟨hreturned, hplugin⟩ := d.toDll.mtSrvStartup_starts server
  exact ⟨congrArg Returned.int hreturned, rfl, hplugin⟩

theorem call_cleanup (h : d.call .mtSrvCleanup = some (d', r)) :
    d.mt4logger = true ∧ d'.mt4logger = false ∧ d'.mt4plugin = none := by
  obtain ⟨d₁, hclean, hd⟩ := Option.map_eq_some_iff.mp h
  obtain ⟨d₂, hlog, rfl⟩ := Option.map_eq_some_iff.mp hclean
  obtain ⟨rfl, -⟩ := Prod.mk.inj hd
  exact ⟨(logInfo_eq_some hlog).1, rfl, rfl⟩

/-- **What a call does to the two pointers**: `MtSrvStartup` adds, `MtSrvCleanup` uses the logger and
takes both away, and the hooks leave them. -/
theorem call_pointers (h : d.call c = some (d', r)) :
    (∃ server, c = .mtSrvStartup server ∧ r = .int (starts server) ∧
      d'.mt4logger = (d.mt4logger || server.isSome) ∧
      d'.mt4plugin.isSome = (d.mt4plugin.isSome || starts server)) ∨
    (c = .mtSrvCleanup ∧ d.mt4logger = true ∧ d'.mt4logger = false ∧ d'.mt4plugin = none) ∨
    (c.loads = false ∧ d'.mt4logger = d.mt4logger ∧
      d'.mt4plugin.isSome = d.mt4plugin.isSome) := by
  cases c with
  | mtSrvStartup server => exact Or.inl ⟨server, rfl, call_startup h⟩
  | mtSrvCleanup => exact Or.inr (Or.inl ⟨rfl, call_cleanup h⟩)
  | mtSrvPluginCfgSet values =>
    obtain ⟨d₁, hset, hd⟩ := Option.map_eq_some_iff.mp h
    obtain ⟨rfl, -⟩ := Prod.mk.inj hd
    unfold mtSrvPluginCfgSet at hset
    split at hset
    · obtain ⟨hl, hp⟩ := foldlM_logInfo values hset
      exact Or.inr (Or.inr ⟨rfl, hl, congrArg Option.isSome hp⟩)
    · obtain rfl := Option.some.inj hset
      exact Or.inr (Or.inr ⟨rfl, rfl, rfl⟩)
  | mtSrvGroupsAdd group =>
    obtain ⟨rfl, -⟩ := Prod.mk.inj (Option.some.inj h)
    exact Or.inr (Or.inr ⟨rfl, rfl, Option.isSome_map⟩)
  | mtSrvSymbolsAdd symbol =>
    obtain ⟨rfl, -⟩ := Prod.mk.inj (Option.some.inj h)
    exact Or.inr (Or.inr ⟨rfl, rfl, Option.isSome_map⟩)
  | mtSrvHistoryTickApply tick status =>
    obtain ⟨rfl, -⟩ := Prod.mk.inj (Option.some.inj h)
    refine Or.inr (Or.inr ⟨rfl, ?_⟩)
    unfold mtSrvHistoryTickApply
    cases hp : d.mt4plugin with
    | none => exact ⟨rfl, congrArg Option.isSome hp⟩
    | some p => exact ⟨rfl, rfl⟩

/-- With a logger wherever there is a plugin, only an `MtSrvCleanup` without one dereferences a null
pointer. -/
theorem call_isSome (hinv : d.mt4plugin.isSome = true → d.mt4logger = true)
    (hclean : c = .mtSrvCleanup → d.mt4logger = true) : ∃ d' r, d.call c = some (d', r) := by
  cases c with
  | mtSrvStartup server => exact ⟨_, _, rfl⟩
  | mtSrvCleanup =>
    obtain ⟨d₁, hlog⟩ := logInfo_isSome (hclean rfl)
      (bytes "Unloading plugin, cleaning up resources")
    exact ⟨_, _, Option.map_eq_some_iff.mpr ⟨_, Option.map_eq_some_iff.mpr ⟨d₁, hlog, rfl⟩, rfl⟩⟩
  | mtSrvPluginCfgSet values =>
    by_cases hp : d.mt4plugin.isSome = true
    · obtain ⟨d₁, hset⟩ := foldlM_logInfo_isSome values (hinv hp)
      exact ⟨_, _, Option.map_eq_some_iff.mpr ⟨d₁, (if_pos hp).trans hset, rfl⟩⟩
    · exact ⟨_, _, Option.map_eq_some_iff.mpr ⟨d, if_neg hp, rfl⟩⟩
  | mtSrvGroupsAdd group => exact ⟨_, _, rfl⟩
  | mtSrvSymbolsAdd symbol => exact ⟨_, _, rfl⟩
  | mtSrvHistoryTickApply tick status => exact ⟨_, _, rfl⟩

/-! ## Runs -/

theorem run_snoc_iff {calls : List HookCall} : d.run (calls ++ [c]) = some d' ↔
    ∃ d₁ r, d.run calls = some d₁ ∧ d₁.call c = some (d', r) := by
  have hlast : ∀ d₁ : LoadedDll, [c].foldlM (fun d c => (d.call c).map Prod.fst) d₁ = some d' ↔
      ∃ r, d₁.call c = some (d', r) := by
    intro d₁
    simp
  unfold run
  rw [List.foldlM_append]
  constructor
  · intro h
    obtain ⟨d₁, hrun, hd⟩ := Option.bind_eq_some_iff.mp h
    obtain ⟨r, hr⟩ := (hlast d₁).mp hd
    exact ⟨d₁, r, hrun, hr⟩
  · rintro ⟨d₁, r, hrun, hr⟩
    exact Option.bind_eq_some_iff.mpr ⟨d₁, hrun, (hlast d₁).mpr ⟨r, hr⟩⟩

end LoadedDll

/-- The calls since the last `MtSrvCleanup` after one more. -/
theorem sinceCleanup_snoc (calls : List HookCall) (c : HookCall) :
    (c = .mtSrvCleanup ∧ sinceCleanup (calls ++ [c]) = []) ∨
      (c ≠ .mtSrvCleanup ∧ sinceCleanup (calls ++ [c]) = sinceCleanup calls ++ [c]) := by
  unfold sinceCleanup
  rw [List.rtakeWhile_concat]
  cases c with
  | mtSrvCleanup => exact Or.inl ⟨rfl, rfl⟩
  | _ => exact Or.inr ⟨fun h => (nomatch h), rfl⟩

/-- **The two pointers after any calls**, told from the calls alone. -/
theorem LoadedDll.run_pointers {calls : List HookCall} {d : LoadedDll}
    (h : LoadedDll.unloaded.run calls = some d) :
    d.mt4logger = serverSeen calls ∧ d.mt4plugin.isSome = started calls := by
  induction calls using List.reverseRecOn generalizing d with
  | nil =>
    obtain rfl := Option.some.inj h
    exact ⟨rfl, rfl⟩
  | append_singleton calls c ih =>
    obtain ⟨d₁, r, hrun, hcall⟩ := LoadedDll.run_snoc_iff.mp h
    obtain ⟨hlogger, hplugin⟩ := ih hrun
    unfold serverSeen at hlogger ⊢
    unfold started at hplugin ⊢
    rcases LoadedDll.call_pointers hcall with
      ⟨server, rfl, -, hl, hp⟩ | ⟨rfl, -, hl, hp⟩ | ⟨hloads, hl, hp⟩
    · rcases sinceCleanup_snoc calls (.mtSrvStartup server) with ⟨hc, -⟩ | ⟨-, hs⟩
      · cases hc
      · rw [hl, hp, hs, hlogger, hplugin]
        simp
    · rcases sinceCleanup_snoc calls .mtSrvCleanup with ⟨-, hs⟩ | ⟨hc, -⟩
      · rw [hl, hp, hs]
        exact ⟨rfl, rfl⟩
      · exact absurd rfl hc
    · rcases sinceCleanup_snoc calls c with ⟨rfl, -⟩ | ⟨-, hs⟩
      · cases hloads
      · rw [hl, hp, hs, hlogger, hplugin]
        cases c with
        | mtSrvStartup server => cases hloads
        | mtSrvCleanup => cases hloads
        | _ => simp

/-- A plugin is there only beside a logger. -/
theorem serverSeen_of_started {calls : List HookCall} (h : started calls = true) :
    serverSeen calls = true := by
  obtain ⟨c, hc, hstarts⟩ := List.any_eq_true.mp h
  refine List.any_eq_true.mpr ⟨c, hc, ?_⟩
  cases c with
  | mtSrvStartup server =>
    cases server with
    | none => exact hstarts
    | some o => rfl
  | _ => exact hstarts

/-! ## The most recent startup -/

/-- What one more call makes of the most recent startup. -/
theorem lastReturnedTrue_snoc {calls : List HookCall} {c : HookCall} {d d' : LoadedDll}
    {r : Returned} (hrun : LoadedDll.unloaded.run calls = some d) (hcall : d.call c = some (d', r)) :
    LastReturnedTrue (calls ++ [c]) ↔
      (∃ server, c = .mtSrvStartup server ∧ starts server = true) ∨
        (c.loads = false ∧ LastReturnedTrue calls) := by
  constructor
  · rintro ⟨before, server, rest, e, e', hcalls, hrest, hbefore, hstart⟩
    rcases List.eq_nil_or_concat rest with rfl | ⟨rest, last, rfl⟩
    · obtain ⟨rfl, hc⟩ := List.append_inj' hcalls rfl
      obtain rfl := List.singleton_inj.mp hc
      exact Or.inl ⟨server, rfl, (Returned.int.inj (LoadedDll.call_startup hstart).1).symm⟩
    · rw [List.concat_eq_append] at hcalls hrest
      rw [← List.cons_append, ← List.append_assoc] at hcalls
      obtain ⟨rfl, hc⟩ := List.append_inj' hcalls rfl
      obtain rfl := List.singleton_inj.mp hc
      exact Or.inr ⟨hrest c (List.mem_append.mpr (Or.inr (List.mem_singleton_self c))), before,
        server, rest, e, e', rfl, fun x hx => hrest x (List.mem_append.mpr (Or.inl hx)), hbefore,
        hstart⟩
  · rintro (⟨server, rfl, hstarts⟩ | ⟨hloads, before, server, rest, e, e', rfl, hrest, hbefore,
      hstart⟩)
    · rw [(LoadedDll.call_startup hcall).1, hstarts] at hcall
      exact ⟨calls, server, [], d, d', rfl, fun x hx => absurd hx List.not_mem_nil, hrun, hcall⟩
    · refine ⟨before, server, rest ++ [c], e, e', ?_, fun x hx => ?_, hbefore, hstart⟩
      · rw [List.append_assoc, List.cons_append]
      · rcases List.mem_append.mp hx with hx | hx
        · exact hrest x hx
        · exact List.mem_singleton.mp hx ▸ hloads

/-! ## When the calls are safe -/

theorem OrderedCalls.of_prefix {calls before : List HookCall} (h : OrderedCalls calls)
    (hp : before <+: calls) : OrderedCalls before := by
  obtain ⟨after, rfl⟩ := hp
  constructor
  · rintro first rest rfl
    exact h.cleanup first (rest ++ after) (by rw [List.append_assoc, List.cons_append])
  · rintro first server rest rfl
    exact h.startup first server (rest ++ after) (by rw [List.append_assoc, List.cons_append])

/-- Calls in such an order run, and leave a plugin as the last startup says. -/
theorem OrderedCalls.run {calls : List HookCall} (h : OrderedCalls calls) :
    ∃ d, LoadedDll.unloaded.run calls = some d ∧
      (d.mt4plugin.isSome = true ↔ LastReturnedTrue calls) := by
  induction calls using List.reverseRecOn with
  | nil =>
    refine ⟨_, rfl, fun hp => (nomatch hp), ?_⟩
    rintro ⟨before, server, rest, -, -, hcalls, -⟩
    exact absurd hcalls.symm (List.append_ne_nil_of_right_ne_nil _ (List.cons_ne_nil _ _))
  | append_singleton calls c ih =>
    obtain ⟨d, hrun, hiff⟩ := ih (h.of_prefix (List.prefix_append calls [c]))
    obtain ⟨hlogger, hplugin⟩ := LoadedDll.run_pointers hrun
    obtain ⟨d', r, hcall⟩ : ∃ d' r, d.call c = some (d', r) := by
      refine LoadedDll.call_isSome (fun hp => ?_) fun hc => ?_
      · rw [hlogger]
        exact serverSeen_of_started (hplugin ▸ hp)
      · rw [hlogger]
        exact h.cleanup calls [] (hc ▸ rfl)
    refine ⟨d', LoadedDll.run_snoc_iff.mpr ⟨d, r, hrun, hcall⟩, ?_⟩
    rw [lastReturnedTrue_snoc hrun hcall]
    rcases LoadedDll.call_pointers hcall with
      ⟨server, rfl, -, -, hp⟩ | ⟨rfl, -, -, hp⟩ | ⟨hloads, -, hp⟩
    · -- a plugin that was there before a startup that fails is what the order rules out
      have hnew : d'.mt4plugin.isSome = starts server := by
        cases hs : starts server with
        | true => rw [hp, hs, Bool.or_true]
        | false => rw [hp, hs, Bool.or_false, hplugin, h.startup calls server [] rfl hs]
      rw [hnew]
      refine ⟨fun hs => Or.inl ⟨server, rfl, hs⟩, ?_⟩
      rintro (⟨s, hs, hstarts⟩ | ⟨hloads, -⟩)
      · exact HookCall.mtSrvStartup.inj hs ▸ hstarts
      · cases hloads
    · rw [hp]
      refine ⟨fun hs => (nomatch hs), ?_⟩
      rintro (⟨s, hs, -⟩ | ⟨hloads, -⟩)
      · cases hs
      · cases hloads
    · rw [hp, hiff]
      refine ⟨fun hlast => Or.inr ⟨hloads, hlast⟩, ?_⟩
      rintro (⟨s, rfl, -⟩ | ⟨-, hlast⟩)
      · cases hloads
      · exact hlast

/-- **The entry points are safe exactly in an order** in which each `MtSrvCleanup` finds a logger
and no `MtSrvStartup` fails beside a plugin. -/
theorem safeCalls_iff (calls : List HookCall) : SafeCalls calls ↔ OrderedCalls calls := by
  constructor
  · intro h
    constructor
    · rintro before rest rfl
      obtain ⟨d', hrun', -⟩ := h (before ++ [.mtSrvCleanup]) ⟨rest, by simp⟩
      obtain ⟨d, r, hrun, hcall⟩ := LoadedDll.run_snoc_iff.mp hrun'
      exact (LoadedDll.run_pointers hrun).1 ▸ (LoadedDll.call_cleanup hcall).1
    · rintro before server rest rfl hfails
      obtain ⟨d', hrun', hiff⟩ := h (before ++ [.mtSrvStartup server]) ⟨rest, by simp⟩
      obtain ⟨d, r, hrun, hcall⟩ := LoadedDll.run_snoc_iff.mp hrun'
      rw [lastReturnedTrue_snoc hrun hcall] at hiff
      by_contra hne
      have hstarted : started before = true := (Bool.not_eq_false _).mp hne
      have hp : d'.mt4plugin.isSome = true := by
        rw [(LoadedDll.call_startup hcall).2.2, (LoadedDll.run_pointers hrun).2, hstarted,
          Bool.true_or]
      rcases hiff.mp hp with ⟨s, hs, hstarts⟩ | ⟨hloads, -⟩
      · rw [← HookCall.mtSrvStartup.inj hs, hfails] at hstarts
        cases hstarts
      · cases hloads
  · intro h before hp
    exact (h.of_prefix hp).run

/-! ## A cleanup without a startup, and a startup that fails -/

/-- **Neither a lone `MtSrvCleanup` nor a startup that fails after one that succeeded is safe**: the
one uses a null logger, the other leaves the old plugin. -/
theorem a_cleanup_without_startup_is_unsafe : ¬ SafeCalls [.mtSrvCleanup] ∧
    ¬ SafeCalls [.mtSrvStartup (some (.healthy ⟨bytes "test1", [], 2⟩)), .mtSrvStartup none] := by
  constructor
  · intro h
    obtain ⟨d, hrun, -⟩ := h [.mtSrvCleanup] (List.prefix_refl _)
    cases hrun
  · intro h
    obtain ⟨d', hrun', hiff⟩ := h ([.mtSrvStartup (some (.healthy ⟨bytes "test1", [], 2⟩))] ++
      [.mtSrvStartup none]) (List.prefix_refl _)
    obtain ⟨d, r, hrun, hcall⟩ := LoadedDll.run_snoc_iff.mp hrun'
    have hplugin : d'.mt4plugin.isSome = true := (LoadedDll.run_pointers hrun').2.trans rfl
    rcases (lastReturnedTrue_snoc hrun hcall).mp (hiff.mp hplugin) with
      ⟨server, hserver, hstarts⟩ | ⟨hloads, -⟩
    · obtain rfl := HookCall.mtSrvStartup.inj hserver
      cases hstarts
    · cases hloads

end TradeBridge
