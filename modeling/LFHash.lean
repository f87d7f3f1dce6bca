import LFHash.Interleave
import LFHash.Solo
import LFHash.Weak
import LFHash.Replies
import LFHash.Loops
import LFHash.Word
import LFHash.Mixing
import LFHash.Murmur
import LFHash.Homes
import LFHash.Bytes
import LFHash.Table
import LFHash.Local
import LFHash.Window
import LFHash.Logical
import LFHash.Refine
import LFHash.Lookup
import LFHash.Removed
import LFHash.Placement
import LFHash.Displace
import LFHash.Probe
import LFHash.Bounds
import LFHash.Removal
import LFHash.Inserts
import LFHash.Uniqueness
import LFHash.Claims
import LFHash.InProgress
import LFHash.Obstruction
import LFHash.Reservation
import LFHash.Writer
import LFHash.Bitmap
import LFHash.Readers
import LFHash.Survival
import LFHash.Layout
import LFHash.Rivals
import LFHash.Sequential
import LFHash.Room
import LFHash.Chase
import LFHash.Descent
import LFHash.Workload
import LFHash.Generated
import LFHash.Collisions
import LFHash.Driver
import LFHash.Atomic
import LFHash.Upkeep
import LFHash.Linear
import LFHash.Exclusive
import LFHash.Origin
import LFHash.Charge
import LFHash.Progress
import LFHash.Locality
import LFHash.Footprint
import LFHash.Serial
import LFHash.Turns
import LFHash.Capacity
import LFHash.Seeds
import LFHash.Phases
import LFHash.Told
import LFHash.Exits
import LFHash.Faithful
import LFHash.Benchmark
import LFHash.Histories
import LFHash.Mixed
