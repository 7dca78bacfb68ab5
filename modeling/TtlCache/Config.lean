import TtlCache.Evictor
import TtlCache.Time.Text

/-!
# Configuration

A configuration is made from a list of settings, or built step by step.  A setting that makes no
sense is refused at once; an interval may be set again, an evictor may not.
-/

namespace TtlCache

def leastTtl : Duration := .ofMillis 5

def defaultInterval : Duration := .ofSeconds 300

structure Config where
  evictor : Option Evictor
  interval : Duration

inductive Setting where
  | recency (capacity : Nat)
  | frequency (capacity : Nat)
  | interval (pause : Duration)
  deriving DecidableEq, Repr

namespace Config

def initial : Config where
  evictor := none
  interval := defaultInterval

def setEvictor (config : Config) (evictor : Evictor) : Except Panic Config :=
  match config.evictor with
  | none => .ok { config with evictor := some evictor }
  | some _ => .error .evictorAlreadySet

def setInterval (config : Config) (pause : Duration) : Except Panic Config :=
  if pause.nanos = 0 then
    .error .zeroInterval
  else
    .ok { config with interval := pause }

/-- Keeps the keys used last.  The evictor is made before a second one is refused. -/
def keepRecent (config : Config) (capacity : Nat) : Except Panic Config := do
  config.setEvictor (<- Evictor.builtIn .recency capacity)

def keepFrequent (config : Config) (capacity : Nat) : Except Panic Config := do
  config.setEvictor (<- Evictor.builtIn .frequency capacity)

def apply (config : Config) : Setting -> Except Panic Config
  | .recency capacity => config.keepRecent capacity
  | .frequency capacity => config.keepFrequent capacity
  | .interval pause => config.setInterval pause

def ofSettings (settings : List Setting) : Except Panic Config := settings.foldlM apply initial

/-- One step of building a configuration: a setting as data, or one that is asked for by name. -/
inductive Step where
  | setting (setting : Setting)
  | keepRecent (capacity : Nat)
  | keepFrequent (capacity : Nat)
  | setInterval (pause : Duration)
  | setEvictor (evictor : Evictor)

def take (config : Config) : Step -> Except Panic Config
  | .setting setting => config.apply setting
  | .keepRecent capacity => config.keepRecent capacity
  | .keepFrequent capacity => config.keepFrequent capacity
  | .setInterval pause => config.setInterval pause
  | .setEvictor evictor => config.setEvictor evictor

/-- Takes steps from left to right, up to the first one that is refused. -/
def takeAll (config : Config) : List Step -> Except Panic Config
  | [] => .ok config
  | step :: rest => do (<- config.take step).takeAll rest

/-- The record of a built-in evictor before its first use. -/
def unusedText (capacity : Nat) : Policy -> String
  | .recency =>
      "LruEvictor \x7b capacity: " ++ toString capacity ++
        ", state: Mutex \x7b data: LruState \x7b order: OrderList \x7b head: None, " ++
        "tail: None, len: 0, slots: [], free: [] \x7d, positions: \x7b\x7d \x7d \x7d \x7d"
  | .frequency =>
      "LfuEvictor \x7b capacity: " ++ toString capacity ++
        ", state: Mutex \x7b data: LfuState \x7b nodes: \x7b\x7d, buckets: \x7b\x7d " ++
        "\x7d \x7d \x7d"

/-- An evictor that was handed over writes itself; a built-in one has not seen a key yet. -/
def evictorText : Option Evictor -> String
  | none => "None"
  | some evictor =>
      if evictor.isCustom then
        "Some(Custom)"
      else
        "Some(" ++ unusedText evictor.ranking.capacity evictor.ranking.policy ++ ")"

def text (config : Config) : String :=
  "CacheBuilder \x7b settings: Settings \x7b evictor: " ++ evictorText config.evictor ++
    ", janitor_interval: " ++ config.interval.text ++ " \x7d \x7d"

end Config

end TtlCache
