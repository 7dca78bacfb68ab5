import TtlCache.LockTable.Desk
import TtlCache.Scenario.Session
import TtlCache.Sweeper.Timetable
import TtlCache.Proofs.LockTable.Exclusion
import TtlCache.Proofs.LockTable.Mutexes
import TtlCache.Proofs.LockTable.Queues
import TtlCache.Proofs.Ranking.Tracking
import TtlCache.Proofs.Sweeper.Generations
import TtlCache.Proofs.Sweeper.Settling
import TtlCache.Proofs.Sweeper.Passes
import TtlCache.Proofs.Machine.Places
import TtlCache.Proofs.Machine.Strides
import TtlCache.Proofs.Machine.Guards
import TtlCache.Proofs.Machine.Notes
import TtlCache.Proofs.Machine.Holds
import TtlCache.Proofs.Machine.Care
import TtlCache.Proofs.Machine.Custody
import TtlCache.Proofs.Machine.Agreement
import TtlCache.Proofs.Machine.Ledger
import TtlCache.Proofs.Machine.Stories
import TtlCache.Proofs.Machine.Chronicle
import TtlCache.Proofs.Machine.Standing
import TtlCache.Proofs.Machine.Answers
import TtlCache.Proofs.Machine.SingleFlight
import TtlCache.Proofs.Machine.Stacks
import TtlCache.Proofs.Machine.Threads
import TtlCache.Proofs.Machine.Tokens
import TtlCache.Proofs.Machine.Visits
import TtlCache.Proofs.Machine.Attendance
import TtlCache.Proofs.Machine.Waiting
import TtlCache.Proofs.Machine.Deadlocks
import TtlCache.Proofs.Machine.Acts
import TtlCache.Proofs.Machine.Vacancies
import TtlCache.Proofs.Machine.Failures
import TtlCache.Proofs.Machine.Counting
import TtlCache.Proofs.Machine.Watch
import TtlCache.Proofs.Ranking.Order
import TtlCache.Proofs.Ranking.Uses
import TtlCache.Proofs.Ranking.Notices
import TtlCache.Proofs.Ranking.LastUses
import TtlCache.Proofs.Ranking.Books
import TtlCache.Proofs.Store.Keys
import TtlCache.Proofs.Machine.Roster
import TtlCache.Proofs.Machine.Findings
import TtlCache.Proofs.Machine.Accounts
import TtlCache.Proofs.Machine.Balance
import TtlCache.Proofs.Machine.Uses
import TtlCache.Proofs.Machine.Losses
import TtlCache.Proofs.Machine.Alone
import TtlCache.Proofs.Machine.Sweep
import TtlCache.Proofs.Machine.Clearing
import TtlCache.Proofs.Machine.Survivors
import TtlCache.Proofs.Machine.Candidates
import TtlCache.Proofs.Machine.Outlooks
import TtlCache.Proofs.Machine.Panics
import TtlCache.Proofs.Machine.Reentry
import TtlCache.Proofs.Machine.Seniority
import TtlCache.Proofs.Machine.Quota
import TtlCache.Proofs.Machine.Mirrors
import TtlCache.Proofs.Machine.Sharding
import TtlCache.Proofs.Chain.Walks
import TtlCache.Proofs.Chain.Edits
import TtlCache.Proofs.Chain.Strict
import TtlCache.Proofs.Chain.Slots
import TtlCache.Proofs.Time.Deadlines
import TtlCache.Proofs.Machine.Freshness
import TtlCache.Proofs.Config.Demands
