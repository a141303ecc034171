import Kb.Lib.Raising
import Kb.Lib.History
import Kb.Lib.Founded
import Kb.Lib.Words
import Kb.Lib.Repeats
import Kb.Lib.Calendar
import Kb.Lib.Transaction
import Kb.Ids
import Kb.Settled
import Kb.Places
import Kb.Tables
import Kb.Landing
import Kb.Atomicity
import Kb.Landed
import Kb.Holding
import Kb.Integrity
import Kb.Composition
import Kb.Declaring
import Kb.Links
import Kb.Validation
import Kb.Definitions
import Kb.Draft
import Kb.Standing
import Kb.Edits
import Kb.Drafting
import Kb.Write
import Kb.Sets
import Kb.Acting
import Kb.Refusing
import Kb.Offers
import Kb.Importing
import Kb.Brought
import Kb.Run
import Kb.Sound
import Kb.Derived
import Kb.Told
import Kb.Parts
import Kb.Search
import Kb.Searched
import Kb.Slugs
import Kb.ItemNames
import Kb.Ordered
import Kb.Itemised
import Kb.Encoding
import Kb.Sections
import Kb.Tops
import Kb.Bare
import Kb.KeywordsRead
import Kb.Stamps
import Kb.Recorded
import Kb.Export
import Kb.Counting
import Kb.Revisions
import Kb.Shipped
import Kb.BuiltOn
import Kb.Filed
import Kb.Lib.Directory
import Kb.Exported
import Kb.Lib.Digits
import Kb.Canonical
import Kb.Lib.Visiting
import Kb.TypesFirst
import Kb.Lib.Turnstile
import Kb.Turn
import Kb.Lib.Breadth
import Kb.Walk
import Kb.Walked
import Kb.Whole
import Kb.FilledIn
import Kb.Lib.Chains
import Kb.Leads
import Kb.Skipped
import Kb.Lib.Ledger
import Kb.Replayed
import Kb.Kept
import Kb.Retried
import Kb.Defined
import Kb.Lib.Stopping
import Kb.Lib.Files
import Kb.Starting
import Kb.Staging
import Kb.Placed
import Kb.Restarted
import Kb.Served
import Kb.Lives
import Kb.Lib.Sorting
import Kb.Answers
import Kb.Owned
