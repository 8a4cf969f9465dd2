import EventChart.Time.Duration
import EventChart.Number.FloatText
/-!
# Settings of the command line

`Config` holds what the command line may be told by its settings file,
environment and flags: how often a watched log is polled, how many events
keep their entries, how many bytes fingerprint the file's head, whether to
log verbosely, the initial timeline, and the limits of dependency
collection.  Durations are in nanoseconds.

`Config.defaults` are the values used when nothing says otherwise;
`Config.validate` names the first setting that no component can work with.
-/

namespace EventChart

/-- The initial timeline of a chart. -/
structure TimelineConfig where
  mode : String
  minimumDelta : Float
  tickSpacing : Int
deriving Inhabited

/-- The bounds of dependency collection. -/
structure LimitsConfig where
  maxCauseDepth : Int
  maxConsequenceDepth : Int
  maxNumberOfCauses : Int
  maxNumberOfConsequences : Int
  maxCollectionTime : Int
  collectMessageReuses : Bool
deriving Inhabited

/-- The settings of the command line. -/
structure Config where
  pollInterval : Int
  maxCachedEvents : Int
  headFingerprintBytes : Int
  verbose : Bool
  timeline : TimelineConfig
  limits : LimitsConfig
deriving Inhabited

namespace Config

/-- All settings zero, empty or off. -/
def zero : Config := ⟨0, 0, 0, false, ⟨"", 0, 0⟩, ⟨0, 0, 0, 0, 0, false⟩⟩

/-- The built-in settings. -/
def defaults : Config :=
  ⟨3000000000, 1024, 4096, false, ⟨"nonlinear", 0.1, 100⟩, ⟨15, 15, 100, 100, 0, true⟩⟩

/-- The first setting that no component can work with. -/
def validate (c : Config) : Option String :=
  if c.pollInterval < 0 then
    some ("poll_interval must not be negative, got " ++ Duration.render ⟨c.pollInterval⟩)
  else if c.maxCachedEvents < 0 then
    some ("max_cached_events must not be negative, got " ++ toString c.maxCachedEvents)
  else if c.headFingerprintBytes < 0 then
    some ("head_fingerprint_bytes must not be negative, got " ++ toString c.headFingerprintBytes)
  else if c.timeline.minimumDelta ≤ 0 || c.timeline.minimumDelta > 1 then
    some ("timeline.nonlinear_minimum_delta must be in (0, 1], got " ++
      Number.showFloat Number.FloatLayout.general c.timeline.minimumDelta)
  else if c.timeline.tickSpacing ≤ 0 then
    some ("timeline.tick_spacing must be positive, got " ++ toString c.timeline.tickSpacing)
  else if c.limits.maxCollectionTime < 0 then
    some ("limits.max_collection_time must not be negative, got " ++ Duration.render ⟨c.limits.maxCollectionTime⟩)
  else none

end Config

end EventChart
