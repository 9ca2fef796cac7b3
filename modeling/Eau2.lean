import Eau2.Network.Return
import Eau2.Network.Publication
import Eau2.Network.Remote
import Eau2.Network.Completion
import Eau2.Network.Liveness
import Eau2.Network.Withheld
import Eau2.Network.Teardown
import Eau2.Network.Shared
import Eau2.Network.Hub
import Eau2.Network.Finish
import Eau2.Network.Frames
import Eau2.DataFrame.Publish
import Eau2.DataFrame.Coverage
import Eau2.DataFrame.Strings
import Eau2.DataFrame.Names
import Eau2.DataFrame.Locality
import Eau2.Sorer.RoundTrip
import Eau2.Sorer.Passes
import Eau2.Sorer.Alignment
import Eau2.Sorer.Range
import Eau2.Sorer.Grammar
import Eau2.Sorer.Integer
import Eau2.Sorer.Join
import Eau2.Network.Stream
import Eau2.Network.Correlation
import Eau2.Linus.Merge
import Eau2.Linus.Search
import Eau2.Linus.Keys
import Eau2.Linus.Frames
import Eau2.Linus.Complete
import Eau2.Linus.Overflow
import Eau2.Application.Demo
import Eau2.Application.WordCount
import Eau2.Application.Complete
import Eau2.Util.Buffer
