import CoverageCounters.Coverage.Codec
import CoverageCounters.Digest.Sha256
import CoverageCounters.Json.Printer

/-!
The fingerprint of a file's coverage: the digest of its canonical JSON text, without the fingerprint
itself and with a tag for the version of the layout.
-/

namespace CoverageCounters

/-- The layout version that goes into every fingerprint. -/
def coverageSchema : String := "covinst-coverage-v1"

/-- The key of the layout version. -/
def schemaKey : String := "_coverageSchema"

namespace FileCoverage

/-- The coverage as it is hashed and embedded: canonical, tagged, without a fingerprint. -/
def taggedPayload (c : FileCoverage) (schema : String) : Json :=
  ({ c with hash := none } : FileCoverage).toJson.canonical.setField schemaKey (.string schema)

def hashedText (c : FileCoverage) (schema : String) : String := (c.taggedPayload schema).compact

def fingerprintWith (c : FileCoverage) (schema : String) : String :=
  Sha256.hex (c.hashedText schema)

def fingerprint (c : FileCoverage) : String := c.fingerprintWith coverageSchema

/-- The fingerprint, or what keeps the content from being written. The printer of canonical texts fails
on no value, so there always is one. -/
def fingerprint? (c : FileCoverage) : Except String String := .ok c.fingerprint

@[simp] theorem taggedPayload_hash (c : FileCoverage) (h : Option String) (schema : String) :
    ({ c with hash := h } : FileCoverage).taggedPayload schema = c.taggedPayload schema := rfl

end FileCoverage
end CoverageCounters
