import Interlock.Json.Decoder
import Interlock.Json.Text
import Interlock.Race.Candidate

/-!
# Settings of an analysis

The settings, and their JSON form.
-/

namespace Interlock

/-- The settings of one analysis. -/
structure Config where
  /-- Only code known to run in the background counts as concurrent. -/
  strictThreadContext : Bool := false
  /-- Block visits that lock tracking may spend on one method. -/
  perMethodBudget : Option UInt64 := none
  /-- Findings below this confidence are left out. -/
  minConfidence : Confidence := .low
  /-- Rounds that recursive methods may take to stabilize. -/
  maxFixpointRounds : Option UInt64 := none
  deriving DecidableEq, Repr

namespace Confidence

/-- The name of a confidence in JSON. -/
def jsonName : Confidence → String
  | low => "Low"
  | high => "High"

/-- The confidence with the given name. -/
def ofJsonName? (name : String) : Option Confidence :=
  if name = "Low" then some .low else if name = "High" then some .high else none

/-- The reader of the JSON form: a name, or an object with the name as its only key and no
content. -/
def decoder : Decoder Confidence
  | _, .str (some name) => ofJsonName? name
  | p, .obj [(some name, .null)] => p.enter?.bind fun _ => ofJsonName? name
  | _, _ => none

end Confidence

namespace Config

/-- The JSON form. -/
def toJson (c : Config) : Json :=
  .ofMembers [
    ("strictThreadContext", .bool c.strictThreadContext),
    ("perMethodBudget", (c.perMethodBudget.map fun n => .ofNat n.toNat).getD .null),
    ("minConfidence", .ofString c.minConfidence.jsonName),
    ("maxFixpointRounds", (c.maxFixpointRounds.map fun n => .ofNat n.toNat).getD .null)]

/-- The reader of the JSON form. -/
def decoder : Decoder Config :=
  .record ["strictThreadContext", "perMethodBudget", "minConfidence", "maxFixpointRounds"]
    fun p fields =>
      match fields with
      | [strict, budget, confidence, rounds] => do
        return {
          strictThreadContext := ← Decoder.withDefault .bool false p strict
          perMethodBudget := ← Decoder.withDefault (.optional .uint64) none p budget
          minConfidence := ← Decoder.withDefault Confidence.decoder .low p confidence
          maxFixpointRounds := ← Decoder.withDefault (.optional .uint64) none p rounds }
      | _ => none

/-- The settings of a text. -/
def parse? (text : String) : Option Config := (Json.parse? text).bind (decoder .top)

/-- The text of settings. -/
def render (c : Config) : String := c.toJson.compact

end Config

end Interlock
