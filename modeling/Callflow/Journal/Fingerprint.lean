import Callflow.Digest.Blake3
import Callflow.Format.Journal
import Callflow.Json.Writer

/-!
# The fingerprint of a journal

The written forms of the kept entries, one after another and without a separator, are digested with
BLAKE3. Two simulations that went the same way have the same fingerprint.
-/

namespace Callflow
namespace Journal

/-- What is digested. -/
def chars (entries : List JournalEntry) : List Char := entries.flatMap fun e => e.toJson.chars

/-- The digest of the kept entries, in hexadecimal. -/
def fingerprint (j : Journal) : String :=
  Blake3.hex (String.ofList (chars j.entries.toList)).toUTF8

end Journal
end Callflow
