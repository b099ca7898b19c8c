import TradeBridge.Workers

/-!
# Startup: `MtSrvStartup`, `plugin::initialize` and the constructor

`MtSrvStartup` (`dllmain.cpp:42-76`) installs what `plugin::initialize` (`plugin.cpp:87-126`)
returns. The constructor (`plugin.cpp:128-157`) connects to NATS and subscribes to the trade
requests; it is `noexcept` and returns nothing, so a failure of either is a log entry and the plugin
is there all the same. What `load_ini` and the NATS calls end with are parts of `Outside`.

Results:
* `initializePlugin_ok_iff`: a plugin is returned for an empty `nats_url` only, as the test of it is
  the wrong way round, and whatever NATS answers.
* **`startsExactly_iff`**: startup succeeds exactly when the plugin can work only where the
  configuration or NATS would make it fail anyway.
* `a_correct_configuration_is_refused`: the configuration of `dllmain.cpp`'s comment.
-/

namespace TradeBridge

open TradeBridge.Lib

/-! ## What startup finds outside -/

/-- `config`, without `last_chart_sync_time`, which nothing reads. -/
structure Config where
  serverName : Bytes
  natsUrl : Bytes
  poolSize : Nat

/-- What `load_ini<config>` ends with: an exception, with its text if it is a `std::exception`, or
what it returns and has stored. -/
inductive LoadIni
  | threw (what : Option Bytes)
  | returned (result : Bool) (cfg : Config)

/-- The server, the ini file, the machine and NATS, at startup. -/
structure Outside where
  platform : Platform
  groups : List ConGroup
  symbols : List ConSymbol
  historyQuotes : Bytes → Int → Option (List RateInfo)
  /-- `server->Version()`. -/
  version : Int32
  loadIni : LoadIni
  /-- `std::thread::hardware_concurrency()`. -/
  hardwareConcurrency : Nat
  /-- `natsConnection_ConnectTo(url)`. -/
  connectTo : Bytes → NatsStatus
  /-- `natsConnection_SubscribeSync(topic)` on an open connection. -/
  subscribeSync : Bytes → NatsStatus
  /-- `natsSubscription_SetPendingLimits`. -/
  setPendingLimits : NatsStatus

namespace Outside

variable (o : Outside)

/-- What the tasks of a new plugin share. -/
def world (names : Names) : World :=
  .start o.platform names o.groups o.symbols o.historyQuotes

/-- `server::connect(url)`; a success is the URL the connection is open to. -/
def connect (url : Bytes) : Except Bytes Bytes :=
  let stat := o.connectTo (cString url)
  if stat = .ok then .ok (cString url) else .error (o.platform.getText stat)

/-- `server::subscribe_sync(topic_name)`, up to the reader it returns. -/
def subscribe (topicName : Bytes) : Except Bytes Unit :=
  let status := o.subscribeSync (cString topicName)
  if status = .ok then
    if o.setPendingLimits = .ok then .ok () else .error (o.platform.getText o.setPendingLimits)
  else .error (o.platform.getText status)

end Outside

/-! ## The plugin -/

/-- `mt4::plugin`: the connection's URL, once it is open, and the pool with what its tasks share. -/
structure Plugin where
  connection : Option Bytes
  pool : Pool World Task

/-- The topic of the trade requests. -/
def tradeRequestTopic (serverName : Bytes) : Bytes := serverName ++ bytes ".trade.request"

/-- The task `nats_subscribe_to_trade_request` detaches. -/
def Task.ofReceive (serverName : Bytes) : Task := .receive ⟨tradeRequestTopic serverName, .read⟩

namespace Plugin

/-- `m_logger.log_error`. -/
def logError (p : Plugin) (text : Bytes) : Plugin :=
  { p with pool := { p.pool with shared := p.pool.shared.logError text } }

/-- `connect_to_nats`. -/
def connectToNats (o : Outside) (url : Bytes) (p : Plugin) : Plugin × Except Bytes Unit :=
  match o.connect url with
  | .ok u => ({ p with connection := some u }, .ok ())
  | .error e => (p, .error e)

/-- `nats_subscribe_to_trade_request`. -/
def natsSubscribeToTradeRequest (o : Outside) (serverName : Bytes) (p : Plugin) :
    Plugin × Except Bytes Unit :=
  match o.subscribe (tradeRequestTopic serverName) with
  | .ok () => ({ p with pool := p.pool.detachTask (.ofReceive serverName) }, .ok ())
  | .error e => (p, .error e)

/-- The constructor. -/
def new (o : Outside) (pluginName serverName natsUrl : Bytes) (poolSize : Nat) : Plugin :=
  let p : Plugin := ⟨none, newPool (o.world (.ofServer pluginName serverName)) poolSize⟩
  match p.connectToNats o natsUrl with
  | (p, .error e) => p.logError (bytes "Failed to connect to NATS: " ++ e)
  | (p, .ok ()) =>
    match p.natsSubscribeToTradeRequest o serverName with
    | (p, .error e) => p.logError (bytes "Failed to subscribe to trade request: " ++ e)
    | (p, .ok ()) => p

end Plugin

/-- The pool size handed to the constructor: `pool_size`, or a fallback where it is `0`. -/
def resolvePoolSize (hardwareConcurrency poolSize : Nat) : Nat :=
  if poolSize = 0 then (if hardwareConcurrency ≠ 0 then hardwareConcurrency else 2) else poolSize

/-- `"Failed to load configuration from {}"`, of `ini_file`. -/
def failedToLoad : Bytes := bytes "Failed to load configuration from ./mt4api.ini"

/-- `plugin::initialize`. Where `load_ini` returns `false` the code throws the text and catches it
again. -/
def initializePlugin (o : Outside) (pluginName : Bytes) : Except Bytes Plugin :=
  match o.loadIni with
  | .threw (some what) => .error (failedToLoad ++ bytes ": " ++ what)
  | .threw none => .error (failedToLoad ++ bytes ": unknown error")
  | .returned false _ => .error (failedToLoad ++ bytes ": " ++ failedToLoad)
  | .returned true cfg =>
    if !cfg.natsUrl.isEmpty then .error (bytes "NATS URL is not configured in the ini file")
    else
      let poolSize := resolvePoolSize o.hardwareConcurrency cfg.poolSize
      if cfg.serverName.isEmpty then
        .error (bytes "Server name is not configured in the ini file")
      else .ok (.new o pluginName cfg.serverName cfg.natsUrl poolSize)

/-! ## `dllmain.cpp` -/

/-- The globals of `dllmain.cpp` and what `mt4logger` has logged. -/
structure Dll where
  mt4plugin : Option Plugin
  logs : List LogEntry

/-- `plugin_info.name`. -/
def pluginInfoName : Bytes := bytes "mt4api"

/-- `mt4logger->log_error`. -/
def Dll.logError (d : Dll) (text : Bytes) : Dll := { d with logs := d.logs ++ [.error text] }

/-- `MtSrvStartup(server)`; a null pointer is `none`. -/
def Dll.mtSrvStartup (d : Dll) : Option Outside → Dll × Bool
  | none => (d, false)
  | some o =>
    if o.version ≠ serverApiVersion then
      (d.logError (bytes "Server API version mismatch: expected " ++
        decimal serverApiVersion.toInt ++ bytes ", got " ++ decimal o.version.toInt), false)
    else
      match initializePlugin o pluginInfoName with
      | .error e => (d.logError (bytes "Failed to initialize plugin: " ++ e), false)
      | .ok p => ({ d with mt4plugin := some p }, true)

/-! ## When a plugin is returned -/

/-- There is always a worker. -/
theorem resolvePoolSize_pos (hardwareConcurrency poolSize : Nat) :
    0 < resolvePoolSize hardwareConcurrency poolSize := by
  unfold resolvePoolSize
  split
  · split <;> omega
  · omega

/-- **Whatever NATS answers, a plugin is returned for an empty `nats_url`** and a server name, and
for no other configuration. -/
theorem initializePlugin_ok_iff (o : Outside) (pluginName : Bytes) (p : Plugin) :
    initializePlugin o pluginName = .ok p ↔
      ∃ cfg, o.loadIni = .returned true cfg ∧ cfg.natsUrl = [] ∧ cfg.serverName ≠ [] ∧
        p = .new o pluginName cfg.serverName cfg.natsUrl
          (resolvePoolSize o.hardwareConcurrency cfg.poolSize) := by
  unfold initializePlugin
  cases o.loadIni with
  | threw what => cases what <;> simp
  | returned result cfg =>
    cases result with
    | false => simp
    | true =>
      obtain ⟨serverName, natsUrl, poolSize⟩ := cfg
      have hcfg : ∀ cfg, LoadIni.returned true ⟨serverName, natsUrl, poolSize⟩ =
          .returned true cfg ↔ ⟨serverName, natsUrl, poolSize⟩ = cfg := by
        intro cfg
        simp
      simp only [hcfg, exists_eq_left']
      cases natsUrl with
      | cons b url => simp
      | nil =>
        cases serverName with
        | nil => simp
        | cons b name => simp [eq_comm]

/-- After a connection and a subscription the pool holds the receive task, waiting. -/
theorem Plugin.new_pool {o : Outside} {pluginName serverName natsUrl u : Bytes} (poolSize : Nat)
    (hconn : o.connect natsUrl = .ok u)
    (hsub : o.subscribe (tradeRequestTopic serverName) = .ok ()) :
    (Plugin.new o pluginName serverName natsUrl poolSize).pool =
      (newPool (o.world (.ofServer pluginName serverName)) poolSize).detachTask
        (.ofReceive serverName) := by
  unfold Plugin.new Plugin.connectToNats
  simp only [hconn]
  unfold Plugin.natsSubscribeToTradeRequest
  simp only [hsub]

/-! ## Startup and what it should need -/

/-- What the plugin needs: the configuration with both texts, and NATS. -/
def CanWork (o : Outside) : Prop :=
  ∃ cfg, o.loadIni = .returned true cfg ∧ cfg.natsUrl ≠ [] ∧ cfg.serverName ≠ [] ∧
    (∃ u, o.connect cfg.natsUrl = .ok u) ∧ o.subscribe (tradeRequestTopic cfg.serverName) = .ok ()

/-- The plugin is connected to the configured URL, has detached the receive task and has a
worker. -/
def Plugin.Works (o : Outside) (p : Plugin) : Prop :=
  ∃ cfg, o.loadIni = .returned true cfg ∧ p.connection = some cfg.natsUrl ∧
    Task.ofReceive cfg.serverName ∈ p.pool.jobs ∧ 0 < p.pool.workers.length

/-- Startup succeeds exactly when the plugin can work. -/
structure StartsExactly (o : Outside) (pluginName : Bytes) : Prop where
  returns_iff : (∃ p, initializePlugin o pluginName = .ok p) ↔ CanWork o
  works : ∀ p, initializePlugin o pluginName = .ok p → p.Works o
  fails : ¬ CanWork o → ∀ d : Dll, (d.mtSrvStartup (some o)).2 = false ∧
    (d.mtSrvStartup (some o)).1.mt4plugin = d.mt4plugin

/-- Where `initialize` returns no plugin, `MtSrvStartup` returns `FALSE` and installs none. -/
theorem Dll.mtSrvStartup_of_error {o : Outside}
    (h : ∀ p, initializePlugin o pluginInfoName ≠ .ok p) (d : Dll) :
    (d.mtSrvStartup (some o)).2 = false ∧
      (d.mtSrvStartup (some o)).1.mt4plugin = d.mt4plugin := by
  unfold Dll.mtSrvStartup
  dsimp only
  by_cases hv : o.version ≠ serverApiVersion
  · rw [if_pos hv]
    exact ⟨rfl, rfl⟩
  · rw [if_neg hv]
    cases hi : initializePlugin o pluginInfoName with
    | error e => exact ⟨rfl, rfl⟩
    | ok p => exact absurd hi (h p)

/-- **Startup succeeds exactly when the plugin can work** if and only if the configuration fails to
load, or has no server name, or names a NATS server that refuses the connection or the
subscription. -/
theorem startsExactly_iff (o : Outside) (pluginName : Bytes) :
    StartsExactly o pluginName ↔
      ∀ cfg, o.loadIni = .returned true cfg → cfg.serverName ≠ [] → cfg.natsUrl ≠ [] ∧
        ((∃ e, o.connect cfg.natsUrl = .error e) ∨
          ∃ e, o.subscribe (tradeRequestTopic cfg.serverName) = .error e) := by
  constructor
  · intro h cfg hload hname
    have hurl : cfg.natsUrl ≠ [] := by
      intro hempty
      obtain ⟨cfg', hload', hurl', -⟩ := h.returns_iff.mp
        ⟨_, (initializePlugin_ok_iff o pluginName _).mpr ⟨cfg, hload, hempty, hname, rfl⟩⟩
      rw [hload] at hload'
      cases hload'
      exact hurl' hempty
    refine ⟨hurl, ?_⟩
    cases hconn : o.connect cfg.natsUrl with
    | error e => exact Or.inl ⟨e, rfl⟩
    | ok u =>
      cases hsub : o.subscribe (tradeRequestTopic cfg.serverName) with
      | error e => exact Or.inr ⟨e, rfl⟩
      | ok _ =>
        obtain ⟨p, hp⟩ := h.returns_iff.mpr ⟨cfg, hload, hurl, hname, ⟨u, hconn⟩, hsub⟩
        obtain ⟨cfg', hload', hempty, -⟩ := (initializePlugin_ok_iff o pluginName p).mp hp
        rw [hload] at hload'
        cases hload'
        exact absurd hempty hurl
  · intro h
    have hnone : ∀ name p, initializePlugin o name ≠ .ok p := by
      intro name p hp
      obtain ⟨cfg, hload, hempty, hname, -⟩ := (initializePlugin_ok_iff o name p).mp hp
      exact (h cfg hload hname).1 hempty
    have hcannot : ¬ CanWork o := by
      rintro ⟨cfg, hload, -, hname, ⟨u, hconn⟩, hsub⟩
      rcases (h cfg hload hname).2 with ⟨e, he⟩ | ⟨e, he⟩
      · rw [hconn] at he
        cases he
      · rw [hsub] at he
        cases he
    exact ⟨⟨fun ⟨p, hp⟩ => absurd hp (hnone _ p), fun hw => absurd hw hcannot⟩,
      fun p hp => absurd hp (hnone _ p), fun _ d => d.mtSrvStartup_of_error (hnone _)⟩

/-- NATS and the subscription answer `NATS_OK`, and the ini file holds `cfg`. -/
def Outside.healthy (cfg : Config) : Outside where
  platform := .win32
  groups := []
  symbols := []
  historyQuotes _ _ := none
  version := serverApiVersion
  loadIni := .returned true cfg
  hardwareConcurrency := 4
  connectTo _ := .ok
  subscribeSync _ := .ok
  setPendingLimits := .ok

/-- **A correct configuration is refused**: the one `dllmain.cpp` names in its comment. -/
theorem a_correct_configuration_is_refused :
    ¬ StartsExactly (.healthy ⟨bytes "test1", bytes "nats://localhost:4222", 2⟩)
      pluginInfoName := by
  intro h
  obtain ⟨p, hp⟩ := h.returns_iff.mpr
    ⟨_, rfl, by decide, by decide, ⟨bytes "nats://localhost:4222", rfl⟩, rfl⟩
  have hrefused : initializePlugin (.healthy ⟨bytes "test1", bytes "nats://localhost:4222", 2⟩)
      pluginInfoName = .error (bytes "NATS URL is not configured in the ini file") := rfl
  rw [hrefused] at hp
  cases hp

end TradeBridge
