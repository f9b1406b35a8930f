import Qrtr.Map.FiniteMap
import Qrtr.Map.Representation
import Qrtr.Map.FiniteTable
import Qrtr.NameServer.Agreement
import Qrtr.NameServer.Departure
import Qrtr.NameServer.Growth
import Qrtr.NameServer.Noninterference
import Qrtr.NameServer.Observer
import Qrtr.NameServer.Removal
import Qrtr.NameServer.Wire
import Qrtr.Qmi.Completeness
import Qrtr.Qmi.DecodeWrites
import Qrtr.Qmi.Enclosed
import Qrtr.Qmi.Framing
import Qrtr.Qmi.Lengths
import Qrtr.Qmi.RoundTrip
import Qrtr.NameServer.Lookups
import Qrtr.NameServer.Publication
import Qrtr.Qmi.Refusal
import Qrtr.Qmi.Counts
import Qrtr.Qmi.Relocation
import Qrtr.Qmi.Insertion
import Qrtr.Qmi.Shortcut
import Qrtr.Qmi.Strings
import Qrtr.Waiter.Core
import Qrtr.Waiter.Synchronize
import Qrtr.Waiter.Adding
import Qrtr.Waiter.Deadlines
import Qrtr.Waiter.Capacity
import Qrtr.LinkedList.Consistency
import Qrtr.Records.Main
import Qrtr.Client.Discovery
import Qrtr.Client.Subscriber
import Qrtr.Waiter.Dispatch
import Qrtr.Waiter.Timeout
import Qrtr.NameServer.Isolation
