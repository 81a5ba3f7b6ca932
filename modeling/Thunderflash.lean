import Thunderflash.Wire.Sanitize
import Thunderflash.Wire.Stream
import Thunderflash.Recv.Admission
import Thunderflash.Send.Work
import Thunderflash.Send.Walk
import Thunderflash.Send.Accounts
import Thunderflash.Recv.Settled
import Thunderflash.Recv.Live
import Thunderflash.Session.Manifest
import Thunderflash.Recv.Accounts
import Thunderflash.Session.Accounts
import Thunderflash.Recv.Parses
import Thunderflash.Recv.Staged
import Thunderflash.Recv.Fallback
import Thunderflash.Recv.Survives
import Thunderflash.Recv.Confined
import Thunderflash.Recv.Dated
import Thunderflash.Recv.Durable
import Thunderflash.Tree.Place
import Thunderflash.Recv.Links
import Thunderflash.Recv.Outcome
import Thunderflash.Session.Agreement
import Thunderflash.Send.Steady
import Thunderflash.Recv.Vouched
import Thunderflash.Session.Delivered
import Thunderflash.Session.Copied
import Thunderflash.Session.Ends
import Thunderflash.Session.Midway
import Thunderflash.Session.Unfailing
import Thunderflash.Phrase.Sha256
